import Cadish.Pipeline.Edits
import Cadish.Server.Inbound

/-!
# From the engine to the origin

`serveOrigin` makes the origin request from the client's, and `revalidate` from what was kept: the
path, the parsed query, the header edits and the Cookie line. **They ask for the same variant
exactly when nothing that the recipe reads is lost** (`revalidate_agrees_iff`): a field is lost
unless an edit settles it, and the query is written anew. **What is a hop's own is not sent on**, and
an untrusted peer has no say in the forwarded fields if the Host is not empty (`originHeader_own`).
-/

namespace Cadish

open List Option HeaderOp AList Header

variable {name : Str}

/-! ## Header edits -/

namespace HeaderOp

def apply (h : Header) : HeaderOp → Header
  | .set name value => h.set name value
  | .append name value => h.insert (canonicalKey name) (h.values name ++ [value])
  | .remove name => h.del name

def settles (name : Str) : HeaderOp → Bool
  | .set n _ | .remove n => canonicalKey n == canonicalKey name
  | .append _ _ => false

def added (name : Str) : HeaderOp → Option Str
  | .append n value => if canonicalKey n = canonicalKey name then some value else none
  | .set _ _ | .remove _ => none

end HeaderOp

theorem Header.values_set_ne (h : Header) {n : Str} (value : Str)
    (hne : canonicalKey name ≠ canonicalKey n) : (h.set n value).values name = h.values name := by
  rw [values, set, lookup_insert_ne hne, values]

theorem Header.values_del_ne (h : Header) {n : Str} (hne : canonicalKey name ≠ canonicalKey n) :
    (h.del n).values name = h.values name := by
  rw [values, del, lookup_erase_ne hne, values]

variable (h : Header) (ops : List HeaderOp)

def applyHeaderOps : Header := ops.foldl apply h

/-- `prependCookieOp`: the client's own cookies for the origin of a credentialed request. -/
def prependCookieOp (orig : Str) : List HeaderOp :=
  (if orig = [] then .remove (lit "Cookie") else .set (lit "Cookie") orig) :: ops

def settled (name : Str) : Bool := ops.any (settles name)

theorem HeaderOp.values_apply (op : HeaderOp) (name : Str) (hop : op.settles name = false) :
    (op.apply h).values name = h.values name ++ (op.added name).toList := by
  cases op with
  | set n value =>
    have hne : canonicalKey name ≠ canonicalKey n := fun h => by
      simp [settles, h] at hop
    rw [apply, values_set_ne h value hne, added, toList_none, append_nil]
  | append n value =>
    rw [apply, values, FinMap.lookup_insert_ite, added]
    by_cases hn : canonicalKey n = canonicalKey name
    · rw [if_pos hn.symm, if_pos hn, values, hn]
      rfl
    · rw [if_neg (Ne.symm hn), if_neg hn, toList_none, append_nil, values]
  | remove n =>
    have hne : canonicalKey name ≠ canonicalKey n := fun h => by
      simp [settles, h] at hop
    rw [apply, values_del_ne h hne, added, toList_none, append_nil]

theorem HeaderOp.values_apply_of_settles {op : HeaderOp} (hop : op.settles name = true) (h h' : Header) :
    (op.apply h).values name = (op.apply h').values name := by
  cases op with
  | set n value =>
    have hn : canonicalKey n = canonicalKey name := by simpa [settles] using hop
    rw [apply, apply, Header.values, Header.values, Header.set, Header.set, hn,
      lookup_insert, lookup_insert]
  | append n value => cases hop
  | remove n =>
    have hn : canonicalKey n = canonicalKey name := by simpa [settles] using hop
    rw [apply, apply, values, values, del, del, hn,
      lookup_erase, lookup_erase]

theorem applyHeaderOps_unsettled : ∀ {ops : List HeaderOp}, settled ops name = false →
    ∀ h : Header, (applyHeaderOps h ops).values name =
      h.values name ++ ops.filterMap (added name)
  | [], _, h => (append_nil _).symm
  | op :: ops, hs, h => by
    obtain ⟨hop, hs'⟩ : op.settles name = false ∧ settled ops name = false := by
      simpa [settled] using hs
    have hstep := values_apply h op name hop
    calc (applyHeaderOps (op.apply h) ops).values name
      _ = (op.apply h).values name ++ ops.filterMap (added name) :=
        applyHeaderOps_unsettled hs' (op.apply h)
      _ = h.values name ++ (op :: ops).filterMap (added name) := by
        rw [hstep, append_assoc, filterMap_cons]
        cases op.added name <;> rfl

theorem applyHeaderOps_settled : ∀ {ops : List HeaderOp}, settled ops name = true →
    ∀ h h' : Header, (applyHeaderOps h ops).values name = (applyHeaderOps h' ops).values name
  | [], hs, _, _ => by cases hs
  | op :: ops, hs, h, h' => by
    cases hrest : settled ops name with
    | true => exact applyHeaderOps_settled hrest _ _
    | false =>
      have hop : op.settles name = true := by
        rwa [settled, any_cons, ← settled, hrest, Bool.or_false] at hs
      have hstep := applyHeaderOps_unsettled hrest (op.apply h)
      rw [values_apply_of_settles hop h h', ← applyHeaderOps_unsettled hrest] at hstep
      exact hstep

theorem applyHeaderOps_values_iff (name : Str) (h h' : Header) :
    (applyHeaderOps h ops).values name = (applyHeaderOps h' ops).values name ↔
      settled ops name = true ∨ h.values name = h'.values name := by
  cases hs : settled ops name with
  | true => simp [applyHeaderOps_settled hs h h']
  | false =>
    rw [applyHeaderOps_unsettled hs, applyHeaderOps_unsettled hs]
    simp

/-! ## The header of an origin request -/

def hopByHop : List Str :=
  [lit "Connection", lit "Keep-Alive", lit "Proxy-Authenticate", lit "Proxy-Authorization",
    lit "Te", lit "Trailer", lit "Transfer-Encoding", lit "Upgrade"]

def connectionTokens (src : Header) : List Str :=
  ((src.lookup (lit "Connection")).getD []).flatMap fun v =>
    (Str.split (Str.byte ',') v).filterMap fun tok =>
      let tok := Str.trimString tok
      if tok = [] then none else some (canonicalKey tok)

def dropped (client : Header) (key : Str) : Bool :=
  hopByHop.elem key || (connectionTokens client).elem key || key == lit "Host"

structure ForwardCtx where
  remoteAddr : Str
  tls : Bool
  host : Str
  trusted : List AddrBlock

/-- The fields `applyForwardedHeaders` may write. -/
def forwardedFamily : List Str :=
  [lit "X-Forwarded-For", lit "X-Real-Ip", lit "X-Forwarded-Proto", lit "X-Forwarded-Host",
    lit "Forwarded"]

section Build

variable (addrString : Addr → Str)

/-- `applyForwardedHeaders`, for an origin request: behind a trusted proxy the chain is kept and
the peer appended, and for any other peer the client's word is replaced. -/
def applyForwardedHeaders (out client : Header) (fwd : ForwardCtx) : Header :=
  let scheme := if fwd.tls then lit "https" else lit "http"
  let host := normalizeHost fwd.host
  let peer := clientIP fwd.remoteAddr ∅ []
  if peerTrusted fwd.remoteAddr fwd.trusted then
    let out := match peer with
      | some peer => out.set (lit "X-Forwarded-For")
          (Str.join (lit ", ") (client.values (lit "X-Forwarded-For") ++ [addrString peer]))
      | none => out
    let out := if out.get (lit "X-Forwarded-Proto") = [] then out.set (lit "X-Forwarded-Proto") scheme
      else out
    let out := if host ≠ [] ∧ out.get (lit "X-Forwarded-Host") = [] then
        out.set (lit "X-Forwarded-Host") host
      else out
    match clientIP fwd.remoteAddr client fwd.trusted with
    | some rc => out.set (lit "X-Real-IP") (addrString rc)
    | none => out
  else
    let out := match peer with
      | some peer => (out.set (lit "X-Forwarded-For") (addrString peer)).set (lit "X-Real-IP")
          (addrString peer)
      | none => (out.del (lit "X-Forwarded-For")).del (lit "X-Real-IP")
    let out := out.set (lit "X-Forwarded-Proto") scheme
    let out := if host ≠ [] then out.set (lit "X-Forwarded-Host") host else out
    out.del (lit "Forwarded")

/-- The header before the edits: the client's without what is dropped, and stamped. -/
def stampedHeader (client : Header) (fwd : Option ForwardCtx) : Header :=
  let out := client.filter fun key _ => !dropped client key
  match fwd with
  | some fwd => applyForwardedHeaders addrString out client fwd
  | none => out

def buildOriginHeader (client : Header) (ops : List HeaderOp) (fwd : Option ForwardCtx) : Header :=
  applyHeaderOps (stampedHeader addrString client fwd) ops

end Build

theorem values_applyForwardedHeaders (addrString : Addr → Str) (out client : Header) (fwd : ForwardCtx)
    (hname : canonicalKey name ∉ forwardedFamily) :
    (applyForwardedHeaders addrString out client fwd).values name = out.values name := by
  have hne {n : Str} (hn : canonicalKey n ∈ forwardedFamily) :
      canonicalKey name ≠ canonicalKey n := fun h => hname (h ▸ hn)
  have hfor := hne (n := lit "X-Forwarded-For") (by decide)
  have hreal := hne (n := lit "X-Real-IP") (by decide)
  have hproto := hne (n := lit "X-Forwarded-Proto") (by decide)
  have hhost := hne (n := lit "X-Forwarded-Host") (by decide)
  have hfwd := hne (n := lit "Forwarded") (by decide)
  -- each stamp is a `set` or a `del` of a field of the family, under a condition or not
  have hite {p : Prop} [Decidable p] {h : Header} {n value : Str}
      (hne : canonicalKey name ≠ canonicalKey n) :
      values (if p then h.set n value else h) name = h.values name := by
    split
    · exact values_set_ne h value hne
    · rfl
  simp only [applyForwardedHeaders]
  split
  case isTrue =>
    cases clientIP fwd.remoteAddr client fwd.trusted <;> cases clientIP fwd.remoteAddr ∅ [] <;>
      simp only [values_set_ne _ _ hfor, values_set_ne _ _ hreal, hite hproto, hite hhost]
  case isFalse =>
    cases clientIP fwd.remoteAddr ∅ [] <;>
      simp only [values_set_ne _ _ hfor, values_set_ne _ _ hreal, values_set_ne _ _ hproto, hite hhost,
        values_del_ne _ hfor, values_del_ne _ hreal, values_del_ne _ hfwd]

theorem values_stampedHeader (addrString : Addr → Str) (client : Header) (fwd : Option ForwardCtx)
    (hname : canonicalKey name ∉ forwardedFamily) :
    (stampedHeader addrString client fwd).values name =
      if dropped client (canonicalKey name) = true then [] else client.values name := by
  have hcopy : values (client.filter fun key _ => !dropped client key) name =
      if dropped client (canonicalKey name) = true then [] else client.values name := by
    rw [values, FinMap.lookup_filter, values]
    cases client.lookup (canonicalKey name) <;>
      cases dropped client (canonicalKey name) <;> rfl
  cases fwd with
  | none => exact hcopy
  | some fwd => exact (values_applyForwardedHeaders addrString _ client fwd hname).trans hcopy

/-! ## What is the hop's own -/

/-- The fields of one hop: the fixed ones and those a Connection line names. -/
def isHop (src : Header) (key : Str) : Bool := hopByHop.elem key || (connectionTokens src).elem key

def copyOriginHeaders (hdr src : Header) : Header :=
  src.entries.foldl (fun hdr e => if isHop src e.1 then hdr
    else hdr.insert e.1 ((hdr.lookup e.1).getD [] ++ e.2)) hdr

theorem lookup_copyOriginHeaders (hdr : Header) {src : Header} {key : Str}
    (hkey : isHop src key = true) : (copyOriginHeaders hdr src).lookup key = hdr.lookup key := by
  refine foldlRecOn (motive := fun h : Header => h.lookup key = hdr.lookup key) _ _ rfl
    fun h ih e _ => ?_
  split
  · exact ih
  case isFalse hkeep =>
    have hne : key ≠ e.1 := fun heq => hkeep (heq ▸ hkey)
    rw [lookup_insert_ne hne, ih]

/-- The stamps for a peer that is not trusted, as edits. -/
def untrustedStamps (addrString : Addr → Str) (fwd : ForwardCtx) : List HeaderOp :=
  (match clientIP fwd.remoteAddr ∅ [] with
    | some peer => [set (lit "X-Forwarded-For") (addrString peer), set (lit "X-Real-IP") (addrString peer)]
    | none => [remove (lit "X-Forwarded-For"), remove (lit "X-Real-IP")]) ++
  set (lit "X-Forwarded-Proto") (if fwd.tls then lit "https" else lit "http") ::
  (if normalizeHost fwd.host ≠ [] then [set (lit "X-Forwarded-Host") (normalizeHost fwd.host)] else []) ++
  [remove (lit "Forwarded")]

theorem applyForwardedHeaders_untrusted {addrString : Addr → Str} {fwd : ForwardCtx}
    (hpeer : peerTrusted fwd.remoteAddr fwd.trusted = false) (out client : Header) :
    applyForwardedHeaders addrString out client fwd =
      applyHeaderOps out (untrustedStamps addrString fwd) := by
  simp only [applyForwardedHeaders, hpeer, untrustedStamps]
  cases clientIP fwd.remoteAddr ∅ [] <;> by_cases hhost : normalizeHost fwd.host = [] <;>
    simp [hhost, applyHeaderOps, apply]

theorem settled_untrustedStamps {addrString : Addr → Str} {fwd : ForwardCtx}
    (hname : canonicalKey name ∈ forwardedFamily) :
    settled (untrustedStamps addrString fwd) name = true ↔
      canonicalKey name = lit "X-Forwarded-Host" → normalizeHost fwd.host ≠ [] := by
  rw [settled, untrustedStamps]
  simp only [forwardedFamily, mem_cons, not_mem_nil, or_false] at hname
  rcases hname with h | h | h | h | h <;> cases clientIP fwd.remoteAddr ∅ [] <;>
    by_cases hhost : normalizeHost fwd.host = [] <;> simp +decide [settles, h, hhost]

def originTarget (clientPath clientRawQuery : Str) : Option RewriteDecision → Str × Str
  | none => (clientPath, clientRawQuery)
  | some rw => (rw.path, rw.rawQuery)

/-- `rawQueryOf`, which is `url.Values.Encode`: the pairs by name, the values of a name in
order. -/
def rawQueryOf (query : FinMap Str (List Str)) : Str :=
  let keys := query.keys.insertionSort fun a b => a ≤ b
  Str.join (lit "&") (keys.flatMap fun k => ((query.lookup k).getD []).map fun v =>
    queryEscape k ++ lit "=" ++ queryEscape v)

def joinHostPort (host port : Str) : Str :=
  if host.elem (Str.byte ':') then lit "[" ++ host ++ lit "]:" ++ port else host ++ lit ":" ++ port

structure OriginRequest where
  method : Str
  key : Str
  rawQuery : Str
  header : Header
  clientHost : Str
  bypass : Bool

namespace BoundSite

variable (addrString : Addr → Str) (site : BoundSite) (r : HttpRequest)

def sentHeader : Header := (site.pipeline.forwarded (site.received addrString r)).header

def clientCtx : ForwardCtx := ⟨r.remoteAddr, r.tls, r.host, site.trustedProxies⟩

def serveOriginRequest (ops : List HeaderOp) (rw : Option RewriteDecision) (bypass : Bool) :
    OriginRequest :=
  let target := originTarget (site.received addrString r).path r.rawQuery rw
  { method := r.method
    key := target.1
    rawQuery := target.2
    header := buildOriginHeader addrString (site.sentHeader addrString r) ops (some (site.clientCtx r))
    clientHost := normalizeHost r.host
    bypass := bypass }

def keptHeader : Header :=
  let fwdCookie := (site.sentHeader addrString r).get (lit "Cookie")
  if fwdCookie = [] then ∅ else set ∅ (lit "Cookie") fwdCookie

/-- The forwarding context of `revalidate`: the client address in the place of the peer. -/
def refreshCtx : Option ForwardCtx :=
  let req := site.received addrString r
  if req.clientIP = [] then none else some ⟨joinHostPort req.clientIP (lit "0"), r.tls, req.host, []⟩

def revalidateRequest (ops : List HeaderOp) (rw : Option RewriteDecision) : OriginRequest :=
  let req := site.received addrString r
  let target := originTarget req.path (rawQueryOf req.query) rw
  { method := lit "GET"
    key := target.1
    rawQuery := target.2
    header := buildOriginHeader addrString (site.keptHeader addrString r) ops
      (site.refreshCtx addrString r)
    clientHost := normalizeHost req.host
    bypass := false }

/-! ## The variant of a key -/

/-- The request fields behind an input: the device class is that of a user agent, and a geo class
may come from fields of a proxy. -/
def inputFields : Input → List Str
  | .field name => [name]
  | .device => [lit "User-Agent"]
  | .geo .country | .geo .continent => (site.geo.map GeoSource.fields).getD []
  | .geo .region => (site.geoRegion.map GeoSource.fields).getD []
  | _ => []

end BoundSite

def Input.ReadsCookie (name : Str) : Input → Prop
  | .cookie n => name = n
  | .cookies pre => Str.hasPrefix name pre = true
  | _ => False

/-- Two origin requests ask for the same variant under a recipe: they agree on the path, the
query, and every field and cookie that the recipe reads. -/
structure SameVariant (site : BoundSite) (toks : List KeyToken) (a b : OriginRequest) : Prop where
  path : a.key = b.key
  query : a.rawQuery = b.rawQuery
  fields : ∀ i ∈ recipeInputs site.pipeline.stickyCookie toks, ∀ name ∈ site.inputFields i,
    a.header.values name = b.header.values name
  cookies : ∀ i ∈ recipeInputs site.pipeline.stickyCookie toks, ∀ name, i.ReadsCookie name →
    a.header.cookieOf name = b.header.cookieOf name

namespace BoundSite

variable (addrString : Addr → Str) (site : BoundSite) (r : HttpRequest)

variable {name : Str}

def lists (key : Str) : Bool := (connectionTokens (site.sentHeader addrString r)).elem key

/-- A field that reaches the origin in the background as it does in the foreground: a stamped one
if both stamps are alike, the Cookie line unless it is empty or listed as a hop's own, and any
other only if the client's is not sent either. -/
def CarriesField (name : Str) : Prop :=
  let key := canonicalKey name
  let sent := site.sentHeader addrString r
  if key ∈ forwardedFamily then
    (stampedHeader addrString sent (some (site.clientCtx r))).values name =
      (stampedHeader addrString (site.keptHeader addrString r) (site.refreshCtx addrString r)).values name
  else if key = lit "Cookie" then
    if site.lists addrString r key then sent.get name = [] else sent.values name ≠ [[]]
  else dropped sent key = true ∨ sent.values name = []

/-- A cookie that reaches the origin in the background as it does in the foreground: always,
unless the client lists its Cookie line as a hop's own and the cookie is neither absent nor
added by an edit with the same value. -/
def CarriesCookie (ops : List HeaderOp) (name : Str) : Prop :=
  let sent := site.sentHeader addrString r
  let added := (ops.filterMap (added (lit "Cookie"))).flatMap parseLenientCookies
  site.lists addrString r (lit "Cookie") = false ∨ sent.cookieOf name = none ∨
    sent.cookieOf name = added.find? (·.name = name)

structure Survives (ops : List HeaderOp) (rw : Option RewriteDecision) (toks : List KeyToken) :
    Prop where
  query : rw.isSome ∨ rawQueryOf (parseQueryLossless r.rawQuery) = r.rawQuery
  fields : ∀ i ∈ recipeInputs site.pipeline.stickyCookie toks, ∀ name ∈ site.inputFields i,
    settled ops name = true ∨ site.CarriesField addrString r name
  cookies : ∀ i ∈ recipeInputs site.pipeline.stickyCookie toks, ∀ name, i.ReadsCookie name →
    settled ops (lit "Cookie") = true ∨ site.CarriesCookie addrString r ops name

variable {addrString site r}

theorem values_keptHeader (hname : canonicalKey name ≠ lit "Cookie") :
    (site.keptHeader addrString r).values name = [] := by
  simp only [keptHeader]
  split
  · rfl
  · rw [values_set_ne _ _ (by rwa [canonicalKey_cookie])]
    rfl

theorem values_keptHeader_cookie (hname : canonicalKey name = lit "Cookie") :
    (site.keptHeader addrString r).values name =
      if (site.sentHeader addrString r).get (lit "Cookie") = [] then []
      else [(site.sentHeader addrString r).get (lit "Cookie")] := by
  simp only [keptHeader]
  split
  · rfl
  · rw [Header.values, hname, Header.set]
    rfl

theorem dropped_keptHeader (key : Str) :
    dropped (site.keptHeader addrString r) key = (hopByHop.elem key || key == lit "Host") := by
  have hconn : (site.keptHeader addrString r).lookup (lit "Connection") = none := by
    simp only [keptHeader]
    split
    · rfl
    · rfl
  rw [dropped, connectionTokens, hconn]
  simp

theorem values_sentHeader_cookie (hname : Header.canonicalKey name = lit "Cookie") :
    (site.sentHeader addrString r).values name = [] ∨
      (site.sentHeader addrString r).values name = [(site.sentHeader addrString r).get name] := by
  have hone : ((site.sentHeader addrString r).values name).length ≤ 1 := by
    have h := site.forwarded_one_line addrString r
    rw [values, hname]
    exact h
  rw [Header.get]
  rcases hv : (site.sentHeader addrString r).values name with _ | ⟨v, _ | ⟨w, ws⟩⟩
  · exact .inl rfl
  · exact .inr rfl
  · rw [hv] at hone
    simp at hone

theorem dropped_cookie : dropped (site.sentHeader addrString r) (lit "Cookie") =
    site.lists addrString r (lit "Cookie") := by
  rw [dropped, lists, show hopByHop.elem (lit "Cookie") = false by decide,
    show (lit "Cookie" == lit "Host") = false by decide, Bool.false_or, Bool.or_false]

theorem stampedHeader_values_iff (name : Str) :
    (stampedHeader addrString (site.sentHeader addrString r) (some (site.clientCtx r))).values name =
        (stampedHeader addrString (site.keptHeader addrString r)
          (site.refreshCtx addrString r)).values name ↔
      site.CarriesField addrString r name := by
  simp only [CarriesField]
  split
  case isTrue => exact Iff.rfl
  case isFalse hfamily =>
    rw [values_stampedHeader _ _ _ hfamily, values_stampedHeader _ _ _ hfamily, dropped_keptHeader]
    by_cases hcookie : canonicalKey name = lit "Cookie"
    · have hhop : (hopByHop.elem (lit "Cookie") || lit "Cookie" == lit "Host") = false := by decide
      have hget : (site.sentHeader addrString r).get (lit "Cookie") =
          (site.sentHeader addrString r).get name := by
        rw [Header.get, Header.get, Header.values, Header.values, hcookie]
        rfl
      rw [values_keptHeader_cookie hcookie, hcookie, hhop, dropped_cookie, hget]
      cases site.lists addrString r (lit "Cookie") with
      | true =>
        by_cases hempty : (site.sentHeader addrString r).get name = [] <;> simp
      | false =>
        rcases @values_sentHeader_cookie addrString site r name hcookie with hv | hv
        · simp [Header.get, hv]
        · rw [hv]
          by_cases hempty : (site.sentHeader addrString r).get name = [] <;> simp
    · rw [if_neg hcookie, values_keptHeader hcookie]
      cases dropped (site.sentHeader addrString r) (canonicalKey name) <;> simp

theorem cookies_keptHeader :
    ((site.keptHeader addrString r).values (lit "Cookie")).flatMap parseLenientCookies =
      lenientCookies (site.sentHeader addrString r) := by
  have hnil : parseLenientCookies [] = [] := by decide
  rw [values_keptHeader_cookie canonicalKey_cookie, lenientCookies_eq_flatMap]
  rcases @values_sentHeader_cookie addrString site r _ canonicalKey_cookie with hv | hv
  · rw [if_pos (by rw [Header.get, hv]; rfl), hv]
  · rw [hv]
    split
    case isTrue hempty => rw [hempty, flatMap_singleton, hnil, flatMap_nil]
    case isFalse => rfl

theorem cookieOf_iff (ops : List HeaderOp) (name : Str) :
    (buildOriginHeader addrString (site.sentHeader addrString r) ops
        (some (site.clientCtx r))).cookieOf name =
        (buildOriginHeader addrString (site.keptHeader addrString r) ops
          (site.refreshCtx addrString r)).cookieOf name ↔
      settled ops (lit "Cookie") = true ∨ site.CarriesCookie addrString r ops name := by
  have hfamily : canonicalKey (lit "Cookie") ∉ forwardedFamily := by decide
  rw [cookieOf, cookieOf, lenientCookies_eq_flatMap, lenientCookies_eq_flatMap,
    buildOriginHeader, buildOriginHeader]
  cases hs : settled ops (lit "Cookie") with
  | true => simp [applyHeaderOps_settled hs _ (stampedHeader addrString
      (site.keptHeader addrString r) (site.refreshCtx addrString r))]
  | false =>
    have hkept : dropped (site.keptHeader addrString r) (lit "Cookie") = false := by
      rw [dropped_keptHeader]
      decide
    rw [applyHeaderOps_unsettled hs, applyHeaderOps_unsettled hs,
      values_stampedHeader _ _ _ hfamily, values_stampedHeader _ _ _ hfamily, canonicalKey_cookie, dropped_cookie, hkept,
      if_neg Bool.false_ne_true, flatMap_append, flatMap_append, cookies_keptHeader,
      find?_append, find?_append]
    simp only [CarriesCookie, Bool.false_eq_true, false_or]
    cases site.lists addrString r (lit "Cookie") with
    | false =>
      rw [if_neg Bool.false_ne_true, ← lenientCookies_eq_flatMap]
      simp
    | true =>
      -- the foreground has the added cookies only, the background the client's in front of them
      cases hsent : (lenientCookies (site.sentHeader addrString r)).find? (·.name = name) with
      | none => simp [cookieOf, hsent]
      | some c =>
        rw [cookieOf, hsent]
        constructor
        · intro h
          exact .inr (.inr h.symm)
        · rintro (h | h | h)
          · cases h
          · cases h
          · exact h.symm

variable (addrString site r) in
/-- **A background refresh asks for the variant of its key** exactly when what the recipe reads
survives: the query in canonical form or rewritten, and each field and each cookie settled by a
header edit or carried along. -/
theorem revalidate_agrees_iff (ops : List HeaderOp) (rw : Option RewriteDecision) (bypass : Bool)
    (toks : List KeyToken) :
    SameVariant site toks (site.serveOriginRequest addrString r ops rw bypass)
        (site.revalidateRequest addrString r ops rw) ↔
      site.Survives addrString r ops rw toks := by
  have hquery : (site.serveOriginRequest addrString r ops rw bypass).rawQuery =
        (site.revalidateRequest addrString r ops rw).rawQuery ↔
      rw.isSome ∨ rawQueryOf (parseQueryLossless r.rawQuery) = r.rawQuery := by
    have hparsed : (site.received addrString r).query = parseQueryLossless r.rawQuery :=
      received_query r
    cases rw with
    | none => simp [serveOriginRequest, revalidateRequest, originTarget, hparsed, eq_comm]
    | some rw => simp [serveOriginRequest, revalidateRequest, originTarget]
  have hfield (name : Str) : (site.serveOriginRequest addrString r ops rw bypass).header.values name =
        (site.revalidateRequest addrString r ops rw).header.values name ↔
      settled ops name = true ∨ site.CarriesField addrString r name := by
    rw [← stampedHeader_values_iff]
    exact applyHeaderOps_values_iff ops name _ _
  constructor
  · intro h
    exact ⟨hquery.mp h.query, fun i hi name hname => (hfield name).mp (h.fields i hi name hname),
      fun i hi name hname => (cookieOf_iff ops name).mp (h.cookies i hi name hname)⟩
  · intro h
    refine ⟨?_, hquery.mpr h.query,
      fun i hi name hname => (hfield name).mpr (h.fields i hi name hname),
      fun i hi name hname => (cookieOf_iff ops name).mpr (h.cookies i hi name hname)⟩
    cases rw <;> rfl

def languageSite : BoundSite :=
  { pipeline := { Pipeline.bare with
      keyRules := [⟨⟨.default, none⟩, [.path, .header (lit "Accept-Language")]⟩] }
    trustedProxies := [], device := none, geo := none, geoRegion := none, continent := id
    usesSecurityGate := false, usesDeviceClassification := false, usesGeoToken := false
    poolHealthy := none, clustered := false }

def germanRequest : HttpRequest :=
  { method := lit "GET", host := lit "example.com", urlHost := [], path := lit "/"
    rawQuery := [], header := insert (lit "Accept-Language") [lit "de"] ∅
    remoteAddr := lit "203.0.113.9:4711", tls := true }

/-- **The background request begins with an empty header**, so the German page is refreshed with
whatever the origin sends to a client that names no language. -/
theorem revalidate_loses_field :
    ¬ ∀ (addrString : Addr → Str) (site : BoundSite) (r : HttpRequest) (ops : List HeaderOp)
      (rw : Option RewriteDecision) (toks : List KeyToken),
      (site.pipeline.evalRequest (site.pipeline.filtered (site.received addrString r))).selKey =
        some toks →
      SameVariant site toks (site.serveOriginRequest addrString r ops rw false)
        (site.revalidateRequest addrString r ops rw) := by
  intro h
  have hsame := h (fun _ => []) languageSite germanRequest [] none
    [.path, .header (lit "Accept-Language")] rfl
  have hvalues := hsame.fields (.field (lit "Accept-Language")) (by decide)
    (lit "Accept-Language") (by decide)
  revert hvalues
  decide

end BoundSite

end Cadish
