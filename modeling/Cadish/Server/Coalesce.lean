import Mathlib.Data.Finset.Basic
import Cadish.Server.Freshness

/-!
# Requests that wait for one another

A herd of requests for one cold key is one fetch: the first is the winner, and the others wait for
it. A stale key is refreshed in the background, by one refresh at a time, and by at most 128 in the
process. All of it goes by the cache key.
-/

namespace Cadish

/-- `fetchCall`. A call is told from others by the request that won it. -/
structure Call where
  site : Nat
  request : Nat
  key : Key
deriving DecidableEq

/-- `fetchCoalescer`, with the calls that are done and the calls that are waited for. -/
structure Coalescer where
  calls : FinMap Key Call := ∅
  succeeded : FinMap Call Bool := ∅
  waits : FinMap (Nat × Nat) Call := ∅

namespace Coalescer

def enter (c : Coalescer) (call : Call) : Coalescer × Bool :=
  match c.calls.lookup call.key with
  | some existing =>
    ({ c with waits := c.waits.insert (call.site, call.request) existing }, false)
  | none => ({ c with calls := c.calls.insert call.key call }, true)

def finish (c : Coalescer) (call : Call) (succeeded : Bool) : Coalescer :=
  { c with
    calls := if c.calls.lookup call.key = some call then c.calls.erase call.key else c.calls
    succeeded := c.succeeded.insert call succeeded }

def told (c : Coalescer) (site request : Nat) : Option Bool :=
  (c.waits.lookup (site, request)).bind c.succeeded.lookup

end Coalescer

def maxConcurrentBgRevalidations : Nat := 128

/-- The background refreshes: `bg` and `bgSem` of the handler. -/
structure Refreshes where
  inFlight : Finset Key := ∅
  slots : Nat := 0

namespace Refreshes

variable (r : Refreshes) (key : Key)

def begin : Refreshes × Bool :=
  if key ∈ r.inFlight then (r, false)
  else ({ r with inFlight := insert key r.inFlight }, true)

def finish : Refreshes := { r with inFlight := r.inFlight.erase key }

/-- The second half of `triggerBgFetch`: take a slot, or give the key up again. -/
def acquire : Refreshes × Bool :=
  if r.slots < maxConcurrentBgRevalidations then ({ r with slots := r.slots + 1 }, true)
  else (r.finish key, false)

def release : Refreshes := { r with slots := r.slots - 1 }

end Refreshes

end Cadish
