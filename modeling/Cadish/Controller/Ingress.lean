import Cadish.Controller.Names
import Cadish.Controller.Paths

/-!
# Ingresses

The Ingress controller merges the Ingresses of a cluster into sites, from the oldest to the
youngest. The first that names a host owns it for its namespace; of two rules with the same path the
older wins. Reports to the cluster and the choice by class are left out.
-/

namespace Cadish

namespace Ingress

open Controller Cadishfile Str

/-! ## Objects -/

/-- `ServiceBackendPort`: a number, or a name if there is none. -/
structure ServicePort where
  name : Str
  number : Nat
deriving DecidableEq, Repr

/-- `IngressBackend`: the name of a service and its port, if it is a service. -/
structure Backend where
  service : Option (Str × ServicePort)
deriving DecidableEq, Repr

structure HTTPPath where
  path : Str
  pathType : Option PathType
  backend : Backend
deriving DecidableEq, Repr

structure Rule where
  host : Str
  http : Option (List HTTPPath)
deriving DecidableEq, Repr

structure TLS where
  hosts : List Str
  secretName : Str
deriving DecidableEq, Repr

structure Object where
  ns : Str
  name : Str
  creationTimestamp : Instant
  /-- `cadi.sh/policy`, empty if it is not set -/
  policy : Str
  sslRedirect : Str
  defaultBackend : Option Backend
  rules : List Rule
  tls : List TLS
deriving DecidableEq, Repr

variable (ings : List Object) (caps : Caps) (h : Str) (ing : Object) (host : Str) (m : Merge)

def Object.key : Str := ing.ns ++ lit "/" ++ ing.name

def normHost : Str := toLower (trimSpace h)

/-- The older one, and of two from the same time the one with the smaller key. -/
def Object.Older (a b : Object) : Prop :=
  a.creationTimestamp < b.creationTimestamp ∨
    a.creationTimestamp = b.creationTimestamp ∧ a.key ≤ b.key

instance : DecidableRel Object.Older := fun _ _ => inferInstanceAs (Decidable (_ ∨ _ ∧ _))

def sortIngresses : List Object := ings.insertionSort Object.Older

variable (c : CapCounter) (claims : List (Str × Str)) (owner : Str → Option Str) (p : HTTPPath)
  (s : Snapshot) (ns : Str)

def HTTPPath.type : PathType := p.pathType.getD .pathPrefix

def backendTarget (be : Backend) : Option Target :=
  match be.service with
  | none => none
  | some (svc, port) =>
    if svc = [] then none
    else if port.number ≠ 0 then some ⟨ns, svc, itoa port.number⟩
    else if port.name ≠ [] then some ⟨ns, svc, port.name⟩
    else none

def validDNSLabel (s : Str) : Bool :=
  !s.isEmpty && s.length ≤ 63 &&
    s.all (fun b => (97 ≤ b && b ≤ 122) || (48 ≤ b && b ≤ 57) || b == byte '-') &&
    s.head? != some (byte '-') && s.getLast? != some (byte '-')

def isWildcard : Bool := hasPrefix h (lit "*.")

def validIngressHost : Bool :=
  if host = [] ∨ 253 < host.length then false
  else
    let name := if isWildcard host then host.drop 2 else host
    !name.isEmpty && (split (byte '.') name).all validDNSLabel

/-! ## Owners -/

def claim (c : Str × Str) : List (Str × Str) :=
  if claims.any (·.1 = c.1) then claims else claims ++ [c]

def ruleClaims : List (Str × Str) :=
  ings.flatMap fun ing =>
    ((ing.rules.map fun r => normHost r.host).filter (· ≠ [])).map fun h => (h, ing.ns)

def tlsClaims : List (Str × Str) :=
  ings.flatMap fun ing =>
    ((ing.tls.flatMap fun t => t.hosts.map normHost).filter (· ≠ [])).map fun h => (h, ing.ns)

/-- The first claims, oldest first, those of rules before those of certificates. -/
def firstClaims : List (Str × Str) :=
  (ruleClaims (sortIngresses ings) ++ tlsClaims (sortIngresses ings)).foldl claim []

def wildcardCovers (w h : Str) : Bool :=
  hasSuffix h (w.drop 1) && decide ((w.drop 1).length < h.length)

def wildcardHostOwner (h : Str) : Option (Str × Str) :=
  (claims.filter fun c => isWildcard c.1).find? fun c => wildcardCovers c.1 h

/-- `routingHostOwners`, at a host. A host without a wildcard goes to an older wildcard of another
namespace. -/
def routingHostOwner : Option Str :=
  let claims := firstClaims ings
  let rank (h : Str) := claims.findIdx (·.1 = h)
  (claims.lookup h).map fun ns =>
    if isWildcard h then ns
    else
      match wildcardHostOwner claims h with
      | none => ns
      | some (w, wns) => if wns ≠ ns ∧ rank w < rank h then wns else ns

/-! ## The merge -/

structure Route where
  path : Str
  pathType : PathType
  target : Target
deriving DecidableEq, Repr

/-- `ResourceCaps`; zero is no cap. -/
structure Caps where
  maxSites : Nat
  maxRoutes : Nat
  maxFragmentBytes : Nat

structure CapCounter where
  sites : Str → Nat
  routes : Str → Nat
  hostSeen : Str → List Str

def CapCounter.admitHost (host : Str) : Option CapCounter :=
  if caps.maxSites = 0 then some c
  else if host ∈ c.hostSeen ns then some c
  else if caps.maxSites ≤ c.sites ns then none
  else some { c with
    sites := Function.update c.sites ns (c.sites ns + 1)
    hostSeen := Function.update c.hostSeen ns (host :: c.hostSeen ns) }

def CapCounter.admitRoute : Option CapCounter :=
  if caps.maxRoutes = 0 then some c
  else if caps.maxRoutes ≤ c.routes ns then none
  else some { c with routes := Function.update c.routes ns (c.routes ns + 1) }

structure Merge where
  /-- the hosts and their routes, in the order in which they came; an entry without a route is for
  the host alone -/
  entries : List (Str × Option Route)
  hostPolicy : List (Str × Str)
  ownerHosts : List (Str × Str)
  counter : CapCounter

def Merge.empty : Merge := ⟨[], [], [], ⟨fun _ => 0, fun _ => 0, fun _ => []⟩⟩

def Merge.routes (host : Str) : List Route :=
  m.entries.filterMap fun e => if e.1 = host then e.2 else none

def Merge.seen (host path : Str) (pt : PathType) : Bool :=
  (m.routes host).any fun r => r.path = path ∧ r.pathType = pt

def Merge.addPath : Merge :=
  match backendTarget ing.ns p.backend with
  | none => m
  | some target =>
    let path := normalizePath p.path p.type
    if containsEnvPlaceholder path then m
    else if m.seen host path p.type then m
    else
      match m.counter.admitRoute caps ing.ns with
      | none => m
      | some counter =>
        { m with counter := counter, entries := m.entries ++ [(host, some ⟨path, p.type, target⟩)] }

def splitNN (s : Str) : Str × Str := (cut (byte '/') s).getD ([], s)

def Merge.addPolicy : Merge :=
  if ing.policy = [] then m
  else if (splitNN ing.policy).1 ≠ ing.ns ∨ (splitNN ing.policy).2 = [] then m
  else if m.hostPolicy.any (·.1 = host) then m
  else { m with hostPolicy := m.hostPolicy ++ [(host, ing.policy)] }

def Merge.ensureHost : Merge :=
  if m.entries.any (·.1 = host) then m else { m with entries := m.entries ++ [(host, none)] }

def Merge.addOwnerHost : Merge :=
  if (ing.key, host) ∈ m.ownerHosts then m else { m with ownerHosts := m.ownerHosts ++ [(ing.key, host)] }

def Merge.addRule (caps : Caps) (ing : Object) (m : Merge) (rule : Rule) : Merge :=
  let host := normHost rule.host
  if host = [] then m
  else if validIngressHost host = false then m
  else if (owner host).any (· ≠ ing.ns) then m
  else
    match m.counter.admitHost caps ing.ns host with
    | none => m
    | some counter =>
      let m := { m with counter := counter }
      let m := ((m.addPolicy ing host).ensureHost host).addOwnerHost ing host
      (rule.http.getD []).foldl (Merge.addPath caps ing host) m

def Merge.addIngress (caps : Caps) (m : Merge) (ing : Object) : Merge :=
  ing.rules.foldl (Merge.addRule owner caps ing) m

/-- The Ingresses that the controller serves. No two have the same key. -/
structure Snapshot where
  ingresses : List Object
  nodup : (ingresses.map Object.key).Nodup

def merged (caps : Caps) : Merge :=
  (sortIngresses s.ingresses).foldl (Merge.addIngress (routingHostOwner s.ingresses) caps) Merge.empty

/-- The default backend of a host: that of the oldest Ingress with a rule for the host that has one. -/
def hostDefault (m : Merge) (host : Str) : Option Target :=
  (sortIngresses s.ingresses).findSome? fun ing =>
    if (ing.key, host) ∈ m.ownerHosts then ing.defaultBackend.bind (backendTarget ing.ns) else none

/-! ## Fragments -/

def deniedFragmentDirectives : List Str :=
  [lit "upstream", lit "cluster", lit "origin", lit "route", lit "to", lit "sign", lit "import", lit "geo"]

mutual

/-- `firstDeniedDirective`, for one statement. -/
def nodeDenied : Node → Option Str
  | .matcherDef _ _ _ => none
  | .directive name _ none => if name ∈ deniedFragmentDirectives then some name else none
  | .directive name _ (some block) =>
    if name ∈ deniedFragmentDirectives then some name else firstDeniedDirective block

def firstDeniedDirective : List Node → Option Str
  | [] => none
  | n :: body => (nodeDenied n).or (firstDeniedDirective body)

end

def trimNewlines (s : Str) : Str := (s.reverse.dropWhile (· == byte '\n')).reverse

variable (loads : Str → Bool) (fragment : Str)

def fragmentLines : Str :=
  (split (byte '\n') (trimNewlines fragment)).flatMap fun ln => lit "\t" ++ ln ++ lit "\n"

def buildBareFragmentWrapper : Str :=
  lit "_validate.test \x7b\n" ++ fragmentLines fragment ++ lit "\x7d\n"

def buildFragmentWrapper : Str :=
  lit "_validate.test \x7b\n\tupstream _v \x7b to http://x:80 \x7d\n\troute -> _v\n" ++
    fragmentLines fragment ++ lit "\x7d\n"

/-- `validateFragment`: there is no error. Whether a text can be loaded is a parameter. -/
def validateFragment : Bool :=
  if containsEnvPlaceholder fragment then false
  else
    match parse (buildBareFragmentWrapper fragment) with
    | some ⟨none, [site], []⟩ =>
      (firstDeniedDirective site.body).isNone && loads (buildFragmentWrapper fragment)
    | _ => false

def policyFragment (caps : Caps) (policies : Str → Option Str) (ref : Option Str) :
    Str :=
  match ref.bind policies with
  | none => []
  | some fragment =>
    if caps.maxFragmentBytes ≠ 0 ∧ caps.maxFragmentBytes < fragment.length then []
    else if validateFragment loads fragment then fragment
    else []

/-! ## Sites -/

def upstreamName (t : Target) : Str :=
  lit "u_" ++ sanitize t.ns ++ lit "_" ++ sanitize t.svc ++ lit "_" ++ sanitize t.port

def specRank (r : Route) : Nat := if r.pathType = .pathExact then 0 else 1

def isCatchAll (r : Route) : Bool := r.pathType ≠ .pathExact ∧ r.path = lit "/"

/-- The route is written in front of the other, or as far in front as it. -/
def Route.Before (a b : Route) : Prop :=
  specRank a < specRank b ∨ specRank a = specRank b ∧
    (b.path.length < a.path.length ∨ a.path.length = b.path.length ∧ a.path ≤ b.path)

instance : DecidableRel Route.Before := fun _ _ => inferInstanceAs (Decidable (_ ∨ _ ∧ (_ ∨ _ ∧ _)))

def addUp (ups : List (Str × Str)) (t : Target) : List (Str × Str) :=
  if ups.any (·.1 = upstreamName t) then ups else ups ++ [(upstreamName t, t.address)]

def siteStatements (routes : List Route) (default : Option Target) (acme : Bool) (acmeEmail : Str) :
    List Gen :=
  let routed := routes.insertionSort Route.Before
  let ups := ((routed.map (·.target)) ++ default.toList).foldl addUp []
  let matched := (routed.filter fun r => !isCatchAll r).zipIdx
  let bare := routed.filter isCatchAll
  (if acme ∧ ups ≠ [] then [.tls (lit "acme" :: if acmeEmail = [] then [] else [acmeEmail])] else []) ++
    ((ups.insertionSort fun a b => a.1 ≤ b.1).map fun u => .upstream u.1 [u.2]) ++
    matched.flatMap (fun (r, i) => [.matcher (matcherName i) (lit "path") (r.pathType.kind.args r.path),
      .route (some (matcherName i)) (upstreamName r.target)]) ++
    bare.map (fun r => .route none (upstreamName r.target)) ++
    default.toList.map (fun t => .route none (upstreamName t)) ++
    if bare = [] ∧ default = none ∧ matched ≠ [] then
      [.respond (matched.map fun (_, i) => ⟨matcherName i, true⟩) .notFound]
    else []

def writeSite (host : Str) (routes : List Route) (default : Option Target) (fragment : Str) (acme : Bool)
    (acmeEmail : Str) : Str :=
  host ++ lit " \x7b\n" ++ (siteStatements routes default acme acmeEmail).flatMap
      (fun g => lit "\t" ++ join (lit " ") g.row.words ++ lit "\n") ++
    (if fragment = [] then [] else fragmentLines fragment) ++ lit "\x7d\n"

structure Inputs where
  policies : Str → Option Str
  acmeHosts : Str → Bool
  acmeEmail : Str
  caps : Caps

def Merge.hosts (m : Merge) : List Str :=
  (m.entries.map (·.1) ++ m.hostPolicy.map (·.1)).dedup.insertionSort (· ≤ ·)

def translateSites (i : Inputs) (s : Snapshot) : List (Str × Str) :=
  let m := merged s i.caps
  m.hosts.map fun host =>
    (host, writeSite host (m.routes host) (hostDefault s m host)
      (policyFragment loads i.caps i.policies (m.hostPolicy.lookup host)) (i.acmeHosts host) i.acmeEmail)

end Ingress

end Cadish
