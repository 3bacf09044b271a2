import Cadish.Server.Peer

/-!
# Keys across a cluster

The node that is sent a request computes its key anew. **It gets the key of the sender when
everything that the key reads crosses** (`peer_key_eq`). Cookies need not: they are filtered and
stripped, so the owner derives an axis from nothing (`proxyToPeer_loses_axis`). A read-through
carries the rewritten path and the edited header.
-/

namespace Cadish

open List Option FinMap Pipeline
open Header (values cookieLine present)

/-! ## On the wire -/

section Wire

variable {agent method : Str} {h : Header} {key : Str}

/-- The client library leaves a field as it is: it does not write the field itself, and adds no
wish to it. -/
structure WireKept (method : Str) (h : Header) (key : Str) : Prop where
  written : key ∈ writtenFields → h.lookup key = none
  userAgent : key = lit "User-Agent" → ∃ v, v ≠ [] ∧ h.lookup key = some [v]
  encoding : key = lit "Accept-Encoding" →
    h.get (lit "Accept-Encoding") ≠ [] ∨ h.get (lit "Range") ≠ [] ∨ method = lit "HEAD"

theorem WireKept.congr {h' : Header} (hkey : h'.lookup key = h.lookup key)
    (hae : h'.get (lit "Accept-Encoding") = h.get (lit "Accept-Encoding"))
    (hrange : h'.get (lit "Range") = h.get (lit "Range")) (hkept : WireKept method h key) :
    WireKept method h' key := by
  constructor
  · intro hmem
    rw [hkey, hkept.written hmem]
  · intro hua
    obtain ⟨v, hv, hval⟩ := hkept.userAgent hua
    exact ⟨v, hv, by rw [hkey, hval]⟩
  · intro henc
    rw [hae, hrange]
    exact hkept.encoding henc

theorem wireKept_of_ne (hw : key ∉ writtenFields) (hua : key ≠ lit "User-Agent")
    (hae : key ≠ lit "Accept-Encoding") : WireKept method h key :=
  ⟨fun hmem => absurd hmem hw, fun hkey => absurd hkey hua, fun hkey => absurd hkey hae⟩

theorem lookup_written (hkey : key ∈ writtenFields → h.lookup key = none) :
    (filter (fun key _ => !writtenFields.elem key) h).lookup key = h.lookup key := by
  refine lookup_filter_of fun v hv => ?_
  have hmem : key ∉ writtenFields := fun hmem => by cases (hkey hmem).symm.trans hv
  simpa using hmem

theorem Header.setAgent_lookup_ne (hne : key ≠ lit "User-Agent") :
    (h.setAgent agent).lookup key = h.lookup key := by
  rw [setAgent]
  split
  · exact h.lookup_del_ne (by rwa [Header.canonicalKey_userAgent])
  · exact h.lookup_set_ne agent (by rwa [Header.canonicalKey_userAgent])

theorem Header.setAgent_lookup (h : Header) (agent : Str) :
    (h.setAgent agent).lookup (lit "User-Agent") = if agent = [] then none else some [agent] := by
  rw [setAgent]
  split
  · rw [del, Header.canonicalKey_userAgent, AList.lookup_erase]
  · rw [set, Header.canonicalKey_userAgent, AList.lookup_insert]

theorem wireHeader_lookup (hkept : WireKept method h key) :
    (wireHeader agent method h).lookup key = h.lookup key := by
  have hagent : (Header.setAgent (filter (fun key _ => !writtenFields.elem key) h)
      (if h.present (lit "User-Agent") then h.get (lit "User-Agent") else agent)).lookup key =
      h.lookup key := by
    by_cases hkey : key = lit "User-Agent"
    · obtain ⟨v, hv, hlookup⟩ := hkept.userAgent hkey
      have hpresent : h.present (lit "User-Agent") = true := by
        rw [present, Header.canonicalKey_userAgent, ← hkey, hlookup]
        rfl
      have hget : h.get (lit "User-Agent") = v := by
        rw [Header.get, values, Header.canonicalKey_userAgent, ← hkey, hlookup]
        rfl
      rw [hlookup, hkey, Header.setAgent_lookup, hpresent, if_pos rfl, hget, if_neg hv]
    · rw [Header.setAgent_lookup_ne hkey, lookup_written hkept.written]
  simp only [wireHeader]
  split
  case isTrue hadd =>
    obtain ⟨hae, hrange, hmethod⟩ := hadd
    have hne : key ≠ lit "Accept-Encoding" := by
      intro hkey
      rcases hkept.encoding hkey with h | h | h
      · exact h hae
      · exact h hrange
      · exact hmethod h
    rw [AList.lookup_insert_ne hne, hagent]
  case isFalse => exact hagent

theorem wireHeader_agent (hpresent : h.present (lit "User-Agent") = true) :
    (wireHeader agent method h).get (lit "User-Agent") = h.get (lit "User-Agent") := by
  have hne : lit "User-Agent" ≠ lit "Accept-Encoding" := by decide
  have hwire : (wireHeader agent method h).lookup (lit "User-Agent") =
      if h.get (lit "User-Agent") = [] then none else some [h.get (lit "User-Agent")] := by
    simp only [wireHeader, hpresent, if_true]
    split
    · rw [AList.lookup_insert_ne hne, Header.setAgent_lookup]
    · rw [Header.setAgent_lookup]
  rw [Header.get, values, Header.canonicalKey_userAgent, hwire]
  split
  case isTrue hempty => exact hempty.symm
  case isFalse => rfl

end Wire

/-! ## What a message carries -/

namespace BoundSite

section Carries

variable (site : BoundSite) (link : PeerLink) (r w : HttpRequest)

/-- The message has a field of the request, and it is left alone on the way. Of the Cookie field
the filtered line counts. -/
def FieldCarried (key : Str) : Prop :=
  if key = lit "Cookie" then
    let line := (site.pipeline.filterRequestCookies r.header.cookieLine).getD r.header.cookieLine
    line = (site.pipeline.filterRequestCookies w.header.cookieLine).getD w.header.cookieLine ∧
      (line ≠ [] ∨ site.pipeline.cookieAllow.isSome)
  else key ≠ hopHeader ∧ r.header.lookup key = w.header.lookup key ∧ WireKept w.method w.header key

/-- The peer trusts the sender, and resolves the client address from what the message says. -/
def AddressCarried : Prop :=
  site.trustedProxies.isEmpty = false ∧
    ∃ ip, Cadish.clientIP r.remoteAddr r.header site.trustedProxies = some ip ∧
      Cadish.clientIP link.addr w.header site.trustedProxies = some ip

/-- The peer resolves the geo classes from what the message says. A field is believed on both nodes
or on neither. -/
def GeoCarried : Prop :=
  site.usesGeoToken = false ∨ site.geo = none ∨
    (site.AddressCarried link r w ∧
      (site.geoFields = [] ∨ peerTrusted r.remoteAddr site.trustedProxies =
        peerTrusted link.addr site.trustedProxies) ∧
      ∀ name ∈ site.geoFields, Header.canonicalKey name ≠ lit "Cookie" ∧
        site.FieldCarried r w (Header.canonicalKey name))

def Carries (pools : Option (Str → Bool)) : Input → Prop
  | .method => r.method = w.method
  | .host => (if r.host = [] then r.urlHost else r.host) = if w.host = [] then w.urlHost else w.host
  | .path => normalizePath r.path = normalizePath w.path
  | .query => r.rawQuery = w.rawQuery
  | .field name => site.FieldCarried r w (Header.canonicalKey name)
  | .cookie name => (site.pipeline.cookiesOf r.header.cookieLine).find? (·.name = name) =
    (site.pipeline.cookiesOf w.header.cookieLine).find? (·.name = name)
  | .cookies pre => ∀ name, Str.hasPrefix name pre = true →
    (site.pipeline.cookiesOf r.header.cookieLine).find? (·.name = name) =
      (site.pipeline.cookiesOf w.header.cookieLine).find? (·.name = name)
  | .clientIP => site.AddressCarried link r w
  | .realClientIP => site.usesSecurityGate = false ∨ site.AddressCarried link r w
  | .device => site.usesDeviceClassification = false ∨ site.device = none ∨
    (w.header.present (lit "User-Agent") = true ∧
      r.header.get (lit "User-Agent") = w.header.get (lit "User-Agent"))
  | .geo _ => site.GeoCarried link r w
  | .pools => site.poolHealthy = pools
  | .upstream | .response => True

variable {site link r w} {m : Membership} {pools : Option (Str → Bool)}

theorem stamped_lookup {h : Header} {key region : Str} (hne : key ≠ hopHeader) :
    (h.set hopHeader region).lookup key = h.lookup key :=
  h.lookup_set_ne region (by rwa [show Header.canonicalKey hopHeader = hopHeader by decide])

theorem send_lookup {key : Str} (hne : key ≠ hopHeader) (hkept : WireKept w.method w.header key) :
    (m.send link w).header.lookup key = w.header.lookup key := by
  have hstamped : WireKept w.method (w.header.set hopHeader m.region) key :=
    hkept.congr (stamped_lookup hne) (Header.get_of_lookup_eq (stamped_lookup (by decide)))
      (Header.get_of_lookup_eq (stamped_lookup (by decide)))
  exact (@wireHeader_lookup link.agent w.method _ key hstamped).trans (stamped_lookup hne)

theorem send_cookieLine : (m.send link w).header.cookieLine = w.header.cookieLine := by
  rw [cookieLine, cookieLine, values, values,
    send_lookup (by decide) (wireKept_of_ne (by decide) (by decide) (by decide))]

theorem FieldCarried.alike {key : Str} (h : site.FieldCarried r w key) :
    site.FieldAlike r (m.send link w) key := by
  rw [FieldCarried] at h
  rw [FieldAlike]
  split
  case isTrue hkey =>
    rw [if_pos hkey] at h
    rw [send_cookieLine]
    exact h
  case isFalse hkey =>
    rw [if_neg hkey] at h
    obtain ⟨hne, hlookup, hkept⟩ := h
    rw [unhopped_lookup hne, unhopped_lookup hne, send_lookup hne hkept, hlookup]

theorem AddressCarried.alike (h : site.AddressCarried link r w) :
    site.AddressAlike r (m.send link w) := by
  obtain ⟨htrusted, ip, hip, hpeer⟩ := h
  refine ⟨htrusted, ip, hip, ?_⟩
  rw [← hpeer]
  exact clientIP_congr
    (send_lookup (by decide) (wireKept_of_ne (by decide) (by decide) (by decide)))

theorem Carries.seenAlike {i : Input} (h : site.Carries link r w pools i) :
    site.SeenAlike r (m.send link w) pools i := by
  cases i with
  | field name => exact FieldCarried.alike h
  | cookie name | cookies pre =>
    simp only [SeenAlike, send_cookieLine]
    exact h
  | clientIP => exact AddressCarried.alike h
  | realClientIP => exact h.imp_right AddressCarried.alike
  | device =>
    refine h.imp_right fun h => h.imp_right fun h => ?_
    obtain ⟨hpresent, hagent⟩ := h
    have hwire := @wireHeader_agent link.agent w.method (w.header.set hopHeader m.region) (by
      rw [present, stamped_lookup (by decide)]
      exact hpresent)
    rw [hagent]
    exact (hwire.trans (Header.get_of_lookup_eq (stamped_lookup (by decide)))).symm
  | geo gran =>
    refine h.imp_right fun h => h.imp_right fun h => ?_
    obtain ⟨haddr, htrust, hfields⟩ := h
    exact ⟨haddr.alike, htrust, fun name hname =>
      ⟨(hfields name hname).1, FieldCarried.alike (hfields name hname).2⟩⟩
  | _ => exact h

end Carries

/-! ## To the owner -/

section Owner

variable (addrString : Addr → Str) (site : BoundSite) (link : PeerLink) (r : HttpRequest)

/-- The Cookie line that is sent to the owner: the client's own, if the origin decides over the
caching, and else what the strip left of it. -/
def hopCookie : Str :=
  if site.credentialed addrString r then r.header.cookieLine
  else (site.sentHeader addrString r).get (lit "Cookie")

/-- A field crosses to the owner: it is no hop's own, and a chain of addresses is the one address
that stands for it. -/
def OwnerField (key : Str) : Prop :=
  if key = lit "Cookie" then
    let line := (site.pipeline.filterRequestCookies r.header.cookieLine).getD r.header.cookieLine
    let hop := site.hopCookie addrString r
    line = (site.pipeline.filterRequestCookies hop).getD hop ∧
      (line ≠ [] ∨ site.pipeline.cookieAllow.isSome)
  else key ≠ hopHeader ∧ (key ∈ lit "Host" :: hopByHop → r.header.lookup key = none) ∧
    (key = lit "X-Forwarded-For" →
      ∀ ip ∈ Cadish.clientIP r.remoteAddr r.header site.trustedProxies,
        r.header.lookup key = some [addrString ip]) ∧
    WireKept r.method r.header key

def OwnerAddress : Prop :=
  site.trustedProxies.isEmpty = false ∧
    ∃ ip, Cadish.clientIP r.remoteAddr r.header site.trustedProxies = some ip ∧
      Cadish.clientIP link.addr (Header.set ∅ (lit "X-Forwarded-For") (addrString ip))
        site.trustedProxies = some ip

/-- **What crosses to the owner.** Method and query always do, the rest on a condition. -/
def OwnerCarries (pools : Option (Str → Bool)) : Input → Prop
  | .method | .query | .upstream | .response => True
  | .host => r.host ≠ []
  | .path => link.basePath = []
  | .field name => site.OwnerField addrString r (Header.canonicalKey name)
  | .cookie name => (site.pipeline.cookiesOf r.header.cookieLine).find? (·.name = name) =
    (site.pipeline.cookiesOf (site.hopCookie addrString r)).find? (·.name = name)
  | .cookies pre => ∀ name, Str.hasPrefix name pre = true →
    (site.pipeline.cookiesOf r.header.cookieLine).find? (·.name = name) =
      (site.pipeline.cookiesOf (site.hopCookie addrString r)).find? (·.name = name)
  | .clientIP => site.OwnerAddress addrString link r
  | .realClientIP => site.usesSecurityGate = false ∨ site.OwnerAddress addrString link r
  | .device => site.usesDeviceClassification = false ∨ site.device = none ∨
    r.header.present (lit "User-Agent") = true
  | .geo _ => site.usesGeoToken = false ∨ site.geo = none ∨
    (site.OwnerAddress addrString link r ∧
      (site.geoFields = [] ∨ peerTrusted r.remoteAddr site.trustedProxies =
        peerTrusted link.addr site.trustedProxies) ∧
      ∀ name ∈ site.geoFields, Header.canonicalKey name ≠ lit "Cookie" ∧
        site.OwnerField addrString r (Header.canonicalKey name))
  | .pools => site.poolHealthy = pools

variable {addrString site link r} {m : Membership} {pools : Option (Str → Bool)}

theorem sentHeader_lookup {key : Str} (hcookie : key ≠ lit "Cookie") (hne : key ≠ hopHeader) :
    (site.sentHeader addrString r).lookup key = r.header.lookup key := by
  rw [sentHeader, forwarded_lookup _ hcookie, received_lookup hcookie, unhopped_lookup hne]

theorem clientIP_sentHeader :
    Cadish.clientIP r.remoteAddr (site.sentHeader addrString r) site.trustedProxies =
      Cadish.clientIP r.remoteAddr r.header site.trustedProxies :=
  clientIP_congr (sentHeader_lookup (by decide) (by decide))

theorem peerHeader_lookup_cases {key : Str} (hcookie : key ≠ lit "Cookie") :
    (site.peerHeader addrString r).lookup key =
      (match Cadish.clientIP r.remoteAddr r.header site.trustedProxies with
        | some ip => Header.set (filter (fun key _ => !(hopByHop.elem key || key == lit "Host"))
            (site.sentHeader addrString r)) (lit "X-Forwarded-For") (addrString ip)
        | none => filter (fun key _ => !(hopByHop.elem key || key == lit "Host"))
            (site.sentHeader addrString r)).lookup key := by
  simp only [peerHeader, clientIP_sentHeader]
  split
  · exact setCookieField_lookup _ _ hcookie
  · rfl

theorem lookup_copied {key : Str} (hcookie : key ≠ lit "Cookie") (hne : key ≠ hopHeader)
    (hhop : key ∈ lit "Host" :: hopByHop → r.header.lookup key = none) :
    (filter (fun key _ => !(hopByHop.elem key || key == lit "Host"))
      (site.sentHeader addrString r)).lookup key = r.header.lookup key := by
  rw [← sentHeader_lookup hcookie hne] at hhop ⊢
  refine lookup_filter_of fun v hv => ?_
  have hmem : key ∉ lit "Host" :: hopByHop := fun hmem => by cases (hhop hmem).symm.trans hv
  rw [mem_cons, not_or] at hmem
  simp [hmem.1, hmem.2]

theorem peerHeader_lookup {key : Str} (hcookie : key ≠ lit "Cookie") (hne : key ≠ hopHeader)
    (hfor : key ≠ lit "X-Forwarded-For")
    (hhop : key ∈ lit "Host" :: hopByHop → r.header.lookup key = none) :
    (site.peerHeader addrString r).lookup key = r.header.lookup key := by
  rw [peerHeader_lookup_cases hcookie]
  split
  · rw [Header.lookup_set_ne _ _ (by rwa [Header.canonicalKey_forwardedFor]), lookup_copied hcookie hne hhop]
  · exact lookup_copied hcookie hne hhop

theorem peerHeader_forwardedFor {ip : Addr}
    (hip : Cadish.clientIP r.remoteAddr r.header site.trustedProxies = some ip) :
    (site.peerHeader addrString r).lookup (lit "X-Forwarded-For") = some [addrString ip] := by
  rw [peerHeader_lookup_cases (by decide), hip]
  simp only [Header.set, Header.canonicalKey_forwardedFor, AList.lookup_insert]

theorem get_peerHeader {name : Str} (hname : Header.canonicalKey name ∉
    lit "Cookie" :: hopHeader :: lit "X-Forwarded-For" :: lit "Host" :: hopByHop) :
    (site.peerHeader addrString r).get name = r.header.get name := by
  simp only [mem_cons, not_or] at hname
  obtain ⟨hcookie, hne, hfor, hhost, hhop⟩ := hname
  refine Header.get_of_lookup_eq (peerHeader_lookup hcookie hne hfor fun hmem => ?_)
  exact absurd hmem (by simp [hhost, hhop])

theorem peerHeader_cookieLine :
    (site.peerHeader addrString r).cookieLine = site.hopCookie addrString r := by
  simp only [peerHeader, hopCookie]
  split
  case isTrue =>
    rw [cookieLine_setCookieField, origClientCookie, canonicalizeRequestCookies_get,
      cookieLine_unhopped]
  case isFalse =>
    -- neither the copy nor the chain of addresses touches the one line there is
    have hone : ((site.sentHeader addrString r).values (lit "Cookie")).length ≤ 1 :=
      site.forwarded_one_line addrString r
    rw [← Header.cookieLine_of_one_line hone, cookieLine, values]
    congr 2
    have hcopied : (filter (fun key _ => !(hopByHop.elem key || key == lit "Host"))
        (site.sentHeader addrString r)).lookup (lit "Cookie") =
          (site.sentHeader addrString r).lookup (lit "Cookie") := lookup_filter_of fun _ _ => rfl
    split
    · exact (Header.lookup_set_ne _ _ (by rw [Header.canonicalKey_forwardedFor]; decide)).trans hcopied
    · exact hcopied

theorem OwnerField.carried {key : Str} (h : site.OwnerField addrString r key) :
    site.FieldCarried r (site.peerRequest addrString link r) key := by
  rw [OwnerField] at h
  rw [FieldCarried]
  split
  case isTrue hkey =>
    rw [if_pos hkey] at h
    have hline : (site.peerRequest addrString link r).header.cookieLine =
        site.hopCookie addrString r := peerHeader_cookieLine
    rw [hline]
    exact h
  case isFalse hkey =>
    rw [if_neg hkey] at h
    obtain ⟨hne, hhop, hfor, hkept⟩ := h
    have hlookup : (site.peerHeader addrString r).lookup key = r.header.lookup key := by
      by_cases hchain : key = lit "X-Forwarded-For"
      · cases hip : Cadish.clientIP r.remoteAddr r.header site.trustedProxies with
        | some ip =>
          rw [hfor hchain ip hip, hchain]
          exact peerHeader_forwardedFor hip
        | none =>
          rw [peerHeader_lookup_cases hkey, hip]
          exact lookup_copied hkey hne hhop
      · exact peerHeader_lookup hkey hne hchain hhop
    exact ⟨hne, hlookup.symm,
      hkept.congr hlookup (get_peerHeader (by decide)) (get_peerHeader (by decide))⟩

theorem OwnerAddress.carried (h : site.OwnerAddress addrString link r) :
    site.AddressCarried link r (site.peerRequest addrString link r) := by
  obtain ⟨htrusted, ip, hip, hpeer⟩ := h
  refine ⟨htrusted, ip, hip, ?_⟩
  rw [← hpeer]
  refine clientIP_congr ((peerHeader_forwardedFor hip).trans ?_)
  exact (AList.lookup_insert (∅ : Header)).symm

theorem OwnerCarries.carries {i : Input} (h : site.OwnerCarries addrString link r pools i) :
    site.Carries link r (site.peerRequest addrString link r) pools i := by
  have hline : (site.peerRequest addrString link r).header.cookieLine =
      site.hopCookie addrString r := peerHeader_cookieLine
  cases i with
  | host =>
    have hhost : r.host ≠ [] := h
    simp only [Carries, peerRequest, if_neg hhost]
  | path =>
    have hbase : link.basePath = [] := h
    simp only [Carries, peerRequest, hbase]
    split
    case isTrue hempty =>
      rw [hempty]
      decide
    case isFalse => rfl
  | field name => exact OwnerField.carried h
  | cookie name | cookies pre =>
    rw [Carries, hline]
    exact h
  | clientIP => exact OwnerAddress.carried h
  | realClientIP => exact h.imp_right OwnerAddress.carried
  | device =>
    refine h.imp_right fun h => h.imp_right fun hpresent => ?_
    refine ⟨?_, (get_peerHeader (by decide)).symm⟩
    rw [← hpresent]
    exact congrArg isSome
      (peerHeader_lookup (by decide) (by decide) (by decide) fun hmem => absurd hmem (by decide))
  | geo gran =>
    refine h.imp_right fun h => h.imp_right fun h => ?_
    obtain ⟨haddr, htrust, hfields⟩ := h
    exact ⟨haddr.carried, htrust, fun name hname =>
      ⟨(hfields name hname).1, OwnerField.carried (hfields name hname).2⟩⟩
  | pools => exact h
  | method | query => rfl
  | upstream | response => trivial

end Owner

/-! ## Keys -/

section Keys

variable (addrString : Addr → Str) (site : BoundSite) (link : PeerLink) (r : HttpRequest)

def ReadsOnly {α : Type} (S : Input → Prop) (rule : MatchContext → α) : Prop :=
  ∀ c c' : MatchContext, (∀ i, S i → i.Agrees c c') → rule c = rule c'

structure KeyReads (S : Input → Prop) : Prop where
  decides : ∀ i ∈ site.pipeline.decisionInputs, S i
  redirects : ∀ rule ∈ site.pipeline.redirectRules, ReadsOnly S rule
  recipe : ∀ toks,
    (site.pipeline.evalRequest (site.pipeline.filtered (site.received addrString r))).selKey =
      some toks → ∀ i ∈ recipeInputs site.pipeline.stickyCookie toks, S i

/-- **What crosses in a read-through**: what the origin request carries. Its path is taken as it
is if the peer has no base path and the path is clean. -/
def ThroughCarries (o : OriginRequest) (pools : Option (Str → Bool)) (i : Input) : Prop :=
  site.Carries link r (o.toHttp link o.key) pools i ∧
    (i = .path → link.basePath = [] ∧ CleanPath o.key)

variable {addrString site link r} {r' : HttpRequest} {m : Membership} {pools : Option (Str → Bool)}

theorem KeyReads.mono {S T : Input → Prop} (hST : ∀ i, S i → T i) (h : site.KeyReads addrString r S) :
    site.KeyReads addrString r T :=
  ⟨fun i hi => hST i (h.decides i hi),
    fun rule hrule c c' hagree => h.redirects rule hrule c c' fun i hi => hagree i (hST i hi),
    fun toks htoks i hi => hST i (h.recipe toks htoks i hi)⟩

theorem cacheKey_seenAlike (h : site.KeyReads addrString r (site.SeenAlike r r' pools)) :
    (site.onPeer pools).cacheKey addrString r' = site.cacheKey addrString r := by
  have hdecide : ∀ i ∈ site.pipeline.decisionInputs, i ≠ .upstream → i.Agrees
      (site.pipeline.context (site.pipeline.filtered (site.received addrString r)) none)
      (site.pipeline.context
        (site.pipeline.filtered ((site.onPeer pools).received addrString r')) none) :=
    fun i hi hup => seenAlike_agrees hup (h.decides i hi)
  refine (evalRequest_agrees hdecide ?_ ?_).symm
  · intro rule hrule
    refine h.redirects rule hrule _ _ fun i hi => ?_
    by_cases hup : i = .upstream
    · subst hup
      exact resolveUpstream_agrees hdecide
    · exact seenAlike_agrees hup hi
  · exact fun toks htoks i hi hup => seenAlike_agrees hup (h.recipe toks htoks i hi)

theorem ThroughCarries.carries {o : OriginRequest} {path : Str} {i : Input}
    (hpath : urlFor link.basePath o.key = some path) (h : site.ThroughCarries link r o pools i) :
    site.Carries link r (o.toHttp link path) pools i := by
  obtain ⟨hcarries, hclean⟩ := h
  cases i with
  | path =>
    obtain ⟨hbase, hclean⟩ := hclean rfl
    rw [hbase, urlFor_clean hclean] at hpath
    obtain rfl : o.key = path := some.inj hpath
    exact hcarries
  | _ => exact hcarries

def clusterSite (toks : List KeyToken) : BoundSite :=
  { languageSite with
    pipeline := { bare with keyRules := [⟨⟨.default, none⟩, toks⟩] }
    trustedProxies := proxyNet
    clustered := true }

def edgeNode : Membership :=
  { region := lit "eu", self := lit "http://10.0.0.1", mode := .owner, fallback := .strict
    owner := fun _ => some (lit "http://10.0.0.2")
    intendedOwner := fun _ => some (lit "http://10.0.0.2") }

def nodeLink : PeerLink :=
  { authority := lit "10.0.0.2", basePath := [], addr := lit "10.0.0.1:9999"
    agent := lit "Go-http-client/1.1", tls := false }

def germanSite : BoundSite := clusterSite [.host, .path, .header (lit "Accept-Language")]

theorem germanSite_keyReads {S : Input → Prop} (hhost : S .host) (hpath : S .path)
    (hfield : S (.field (lit "Accept-Language"))) :
    germanSite.KeyReads (fun _ => []) germanRequest S := by
  refine ⟨nofun, nofun, fun toks htoks i hi => ?_⟩
  obtain rfl : [.host, .path, .header (lit "Accept-Language")] = toks := some.inj htoks
  have hmem : i ∈ [Input.host, .path, .field (lit "Accept-Language")] := hi
  simp only [mem_cons, not_mem_nil, or_false] at hmem
  rcases hmem with rfl | rfl | rfl
  · exact hhost
  · exact hpath
  · exact hfield

def planOf : Classifier :=
  ⟨[([.cookie (lit "plan") [lit "gold"]], lit "gold")], lit "free", [lit "plan"], []⟩

def goldRequest : HttpRequest :=
  { germanRequest with header := AList.insert (lit "Cookie") [lit "plan=gold"] ∅ }

end Keys

end BoundSite

end Cadish
