import Cadish.Cache.Meta
import Cadish.Pipeline.CacheKey
import Cadish.Pipeline.SecGate
import Cadish.Time

/-!
# The compiled pipeline of a site

`evalRequest` runs the request phases: synthetic responses and redirects end them, then purge, pass
and upgrade are decided, and the recipe is selected and rendered; it is captured for the later
phases. Redirect targets and purge patterns enter as functions. Header edits and the origin-path
rewrite change no decision, and are left out.
-/

namespace Cadish

structure Synthetic where
  status : Nat
  body : Str
deriving DecidableEq, Repr

structure Redirect where
  status : Nat
  location : Str
  noStore : Bool
deriving DecidableEq, Repr

structure OnError where
  status : Nat
  body : Str
  contentType : Str
deriving DecidableEq, Repr

inductive RespondWhen where
  | path (p : Str)
  | terms (ts : List (Matcher × Bool))

structure TTLRule where
  sel : Selector
  ttl : Duration
  grace : Duration
  maxStale : Duration
  hitForMiss : Option Duration
  fromHeader : Option Str
  graceFromHeader : Option Str
  maxStaleFromHeader : Option Str

structure Pipeline where
  gate : SecurityGate
  respondRules : List (RespondWhen × Synthetic)
  onErrorRules : List (Scope × OnError)
  redirectRules : List (MatchContext → Option Redirect)
  purgeRules : List (Scope × (Request → Str))
  routeRules : List (Scope × Str)
  defaultUpstream : Str
  passRules : List Scope
  upgradeRules : List Scope
  credentialedRules : List Scope
  keyRules : List KeyRule
  stickyCookie : Str
  ttlRules : List TTLRule
  storageRules : List (Selector × Tier)
  cacheUnsafe : Bool
  ignoreClientRevalidation : Bool
  cookieAllow : Option Pattern
  stripRules : List Scope

structure RequestDecision where
  pass : Bool := false
  upgrade : Bool := false
  synthetic : Option Synthetic := none
  redirect : Option Redirect := none
  upstream : Str := []
  cacheKey : Str := []
  /-- an authorised purge: its pattern, or empty for the key -/
  purge : Option Str := none
  selKey : Option (List KeyToken) := none

namespace Pipeline

/-- The plan of a site that configures nothing but its upstream. -/
def bare : Pipeline :=
  { gate := ⟨[], [], false, []⟩, respondRules := [], onErrorRules := [], redirectRules := []
    purgeRules := [], routeRules := [], defaultUpstream := lit "app", passRules := []
    upgradeRules := [], credentialedRules := [], keyRules := [], stickyCookie := []
    ttlRules := [], storageRules := [], cacheUnsafe := false
    ignoreClientRevalidation := false, cookieAllow := none, stripRules := [] }

variable (p : Pipeline)

variable (req : Request) (c : MatchContext)

def resolveUpstream : Str :=
  match p.routeRules.find? fun r => MatchContext.scopeMatches ⟨req, [], none⟩ r.1 with
  | some r => r.2
  | none => p.defaultUpstream

/-- The context of a phase: the request, its upstream, and a response header if there is one. -/
def context (respHeader : Option Header) : MatchContext :=
  ⟨req, p.resolveUpstream req, respHeader⟩

def selectKeyTokens : List KeyToken :=
  match p.keyRules.find? fun r => r.sel.matches c 0 with
  | some r => r.toks
  | none => []

def respondMatches : RespondWhen → Bool
  | .path path => c.req.path == path
  | .terms ts => respondTermsMatch c ts

def evalRequest : RequestDecision :=
  let c := p.context req none
  match p.respondRules.find? fun r => respondMatches c r.1 with
  | some r => { upstream := c.upstream, synthetic := some r.2 }
  | none =>
    match p.redirectRules.findSome? fun r => r c with
    | some rdr => { upstream := c.upstream, redirect := some rdr }
    | none =>
      let upgrade := p.upgradeRules.any c.scopeMatches
      let toks := p.selectKeyTokens c
      { upstream := c.upstream
        purge := (p.purgeRules.find? fun r => c.scopeMatches r.1).map fun r => r.2 req
        pass := p.passRules.any c.scopeMatches || upgrade
        upgrade := upgrade
        selKey := some toks
        cacheKey := buildKey c p.stickyCookie toks }

def evalOnError : Option OnError :=
  (p.onErrorRules.find? fun r => (p.context req none).scopeMatches r.1).map Prod.snd

/-- `resolvedKeyTokens`: the captured recipe, or a fresh selection where none was captured. -/
def resolvedKeyTokens (selKey : Option (List KeyToken)) : List KeyToken :=
  selKey.getD (p.selectKeyTokens c)

/-- `recipeTokensForReq`: the recipe of a request, with the default for none. -/
def recipeTokensForReq (selKey : Option (List KeyToken)) : List KeyToken :=
  recipeTokens (p.resolvedKeyTokens (p.context req none) selKey)

def cacheCredentialedMatches : Bool := p.credentialedRules.any c.scopeMatches

/-! ## The phases of a request -/

theorem evalRequest_captured {req : Request} {toks : List KeyToken}
    (h : (p.evalRequest req).selKey = some toks) :
    toks = p.selectKeyTokens (p.context req none) ∧
      (p.evalRequest req).cacheKey = buildKey (p.context req none) p.stickyCookie toks := by
  simp only [evalRequest] at h ⊢
  split at h
  · cases h
  · split at h
    · cases h
    · simp only [Option.some.injEq] at h
      exact ⟨h.symm, by rw [← h]⟩

end Pipeline

end Cadish
