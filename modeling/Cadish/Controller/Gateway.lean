import Cadish.Controller.Routing

/-!
# Upstreams of a site

An upstream is named after its backends, by the Ingress controller after one and by that of the
Gateway API after all of a rule. Of two blocks with one name the first is written, so that **each
rule has its own backends just if no two have one name and different targets**
(`upstreams_own_iff`). Hyphens are written like the separator (`upstreams_collide`).
-/

namespace Cadish

open List Controller Ingress Str

namespace Gateway

structure Backend extends Target where
  weight : Int

def usableBackends (bes : List Backend) : List Backend := bes.filter (·.weight ≠ 0)

def poolNameAndTarget (bes : List Backend) : Str × Str :=
  let sorted := bes.insertionSort fun a b => a.svc < b.svc ∨ a.svc = b.svc ∧
    (a.ns < b.ns ∨ a.ns = b.ns ∧ a.port ≤ b.port)
  (lit "u_" ++ join (lit "__") (sorted.map fun be =>
      sanitize be.ns ++ lit "_" ++ sanitize be.svc ++ lit "_" ++ sanitize be.port),
    join (lit " ") (sorted.map (·.address)))

/-- The pool of a rule. One without a usable backend is declared as well. -/
def rulePool (bes : List Backend) : Str × Str :=
  poolNameAndTarget (if usableBackends bes = [] then bes else usableBackends bes)

/-- The upstreams that `writeGatewaySite` declares for the backends of its rules. -/
def siteUpstreams (rules : List (List Backend)) : List (Str × Str) :=
  ((rules.map rulePool).foldl addBlock []).insertionSort fun a b => a.1 ≤ b.1

end Gateway

end Cadish
