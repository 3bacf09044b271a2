import Cadish.Pipeline.Matcher

/-!
# The security gate

An `allow` rule that matches ends the gate, then the first `deny` rule that matches decides, then
the first `rate_limit` rule names a bucket. The gate stops at a monitored deny rule too, so
**monitoring a rule can let through what would be blocked without it**; `monitor_observational` says
exactly when it does not.
-/

namespace Cadish

open List

structure SecRule where
  terms : List (Matcher × Bool)
  monitor : Bool
  name : Str

def SecRule.matches (r : SecRule) (c : MatchContext) : Bool := respondTermsMatch c r.terms

inductive RateLimitKey where
  | ip
  | header (name : Str)
  | global
deriving DecidableEq, Repr

structure RateLimitRule where
  id : Nat
  scope : Scope
  ratePerSec : Rat
  burst : Nat
  key : RateLimitKey
  monitor : Bool
  name : Str

structure RateLimitHit where
  key : Str
  ratePerSec : Rat
  burst : Nat
  monitor : Bool
  rule : Str
deriving DecidableEq

structure SecurityDecision where
  block : Bool := false
  monitor : Bool := false
  allow : Bool := false
  status : Nat := 0
  rule : Str := []
  rateLimit : Option RateLimitHit := none
deriving DecidableEq

structure SecurityGate where
  allowRules : List SecRule
  denyRules : List SecRule
  securityMonitor : Bool
  rateLimitRules : List RateLimitRule

def securityBlockStatus : Nat := 403

/-- `rateLimitRule.bucketKey`: the rule's number and the dimension it is keyed on. -/
def RateLimitRule.bucketKey (r : RateLimitRule) (req : Request) : Str :=
  let dim := match r.key with
    | .ip => req.realClientIP.getD (lit "noip")
    | .header name =>
      let v := req.header.combined name
      if v = [] then lit "noheader" else v
    | .global => lit "global"
  lit (toString r.id) ++ lit "|" ++ dim

namespace SecurityGate

variable (g : SecurityGate) (req : Request)

/-- The site without its monitored deny rules. -/
def dropMonitored : SecurityGate :=
  { g with denyRules := g.denyRules.filter fun r => !r.monitor }

def hasSecurityGate : Bool :=
  !g.allowRules.isEmpty || !g.denyRules.isEmpty || !g.rateLimitRules.isEmpty

def evalRateLimit (c : MatchContext) : Option RateLimitHit :=
  (g.rateLimitRules.find? fun r => c.scopeMatches r.scope).map fun r =>
    { key := r.bucketKey c.req
      ratePerSec := r.ratePerSec
      burst := r.burst
      monitor := r.monitor || g.securityMonitor
      rule := r.name }

def context : MatchContext := ⟨req, [], none⟩

def evalSecurity : SecurityDecision :=
  if !g.hasSecurityGate then {}
  else
    let c := context req
    match g.allowRules.find? fun r => r.matches c with
    | some r => { allow := true, rule := r.name }
    | none =>
      match g.denyRules.find? fun r => r.matches c with
      | some r =>
        if g.securityMonitor || r.monitor then
          { monitor := true, status := securityBlockStatus, rule := r.name }
        else { block := true, status := securityBlockStatus, rule := r.name }
      | none =>
        if g.rateLimitRules.isEmpty then {}
        else
          match g.evalRateLimit c with
          | some hit => { rateLimit := some hit }
          | none => {}

/-! ## What monitoring a rule changes -/

variable {g : SecurityGate} {req : Request}

def Allowed (g : SecurityGate) (req : Request) : Prop :=
  ∃ r ∈ g.allowRules, r.matches (context req) = true

def Forbidden (g : SecurityGate) (req : Request) : Prop :=
  ∃ r ∈ g.denyRules, r.monitor = false ∧ r.matches (context req) = true

def Limited (g : SecurityGate) (req : Request) : Prop :=
  ∃ r ∈ g.rateLimitRules, (context req).scopeMatches r.scope = true

def denier (g : SecurityGate) (req : Request) : Option SecRule :=
  g.denyRules.find? fun r => r.matches (context req)

/-- Monitoring is observational for the request: the enforced rules decide the block, and
without the monitored ones nothing else of the decision would differ. -/
structure MonitorObservational (g : SecurityGate) (req : Request) : Prop where
  block : (g.evalSecurity req).block = true ↔ ¬ g.Allowed req ∧ g.Forbidden req
  dropBlock : (g.dropMonitored.evalSecurity req).block = (g.evalSecurity req).block
  dropAllow : (g.dropMonitored.evalSecurity req).allow = (g.evalSecurity req).allow
  dropRateLimit : (g.dropMonitored.evalSecurity req).rateLimit = (g.evalSecurity req).rateLimit

theorem not_allowed_iff :
    ¬ g.Allowed req ↔ (g.allowRules.find? fun r => r.matches (context req)) = none := by
  simp [Allowed]

theorem evalRateLimit_eq_none_iff : g.evalRateLimit (context req) = none ↔ ¬ g.Limited req := by
  simp [evalRateLimit, Limited]

theorem evalSecurity_of_allowed (h : g.Allowed req) :
    ∃ name, g.evalSecurity req = { allow := true, rule := name } := by
  obtain ⟨r, hr⟩ : ∃ r, (g.allowRules.find? fun r => r.matches (context req)) = some r := by
    rw [← Option.ne_none_iff_exists', ne_eq, ← not_allowed_iff, not_not]
    exact h
  have hgate : g.hasSecurityGate = true := by
    have := mem_of_find?_eq_some hr
    simp [hasSecurityGate, ne_nil_of_mem this]
  refine ⟨r.name, ?_⟩
  simp only [evalSecurity, hgate, hr]
  rfl

theorem evalSecurity_of_not_allowed (h : ¬ g.Allowed req) :
    g.evalSecurity req =
      match g.denier req with
      | some r =>
        if g.securityMonitor || r.monitor then
          { monitor := true, status := securityBlockStatus, rule := r.name }
        else { block := true, status := securityBlockStatus, rule := r.name }
      | none => { rateLimit := g.evalRateLimit (context req) } := by
  rw [not_allowed_iff] at h
  by_cases hgate : g.hasSecurityGate = true
  · simp only [evalSecurity, hgate, h, denier]
    rcases hd : g.denyRules.find? fun r => r.matches (context req) with _ | r
    · by_cases hrl : g.rateLimitRules = []
      · simp [hrl, evalRateLimit]
      · rcases hl : g.evalRateLimit (context req) with _ | hit <;> simp [hrl]
    · simp [hd]
  · -- a site without rules: no rule can match
    simp only [hasSecurityGate, Bool.or_eq_true, Bool.not_eq_true', isEmpty_eq_false_iff,
      not_or, not_not] at hgate
    obtain ⟨⟨ha, hd⟩, hrl⟩ := hgate
    simp [evalSecurity, denier, evalRateLimit, ha, hd, hrl]

@[simp] theorem dropMonitored_allowed : g.dropMonitored.Allowed req ↔ g.Allowed req := Iff.rfl

@[simp] theorem dropMonitored_securityMonitor :
    g.dropMonitored.securityMonitor = g.securityMonitor := rfl

@[simp] theorem dropMonitored_evalRateLimit (c : MatchContext) :
    g.dropMonitored.evalRateLimit c = g.evalRateLimit c := rfl

theorem find?_filter_of_find? {α : Type*} {p q : α → Bool} {l : List α} {a : α}
    (h : l.find? q = some a) (ha : p a = true) : (l.filter p).find? q = some a := by
  induction l with
  | nil => cases h
  | cons x l ih =>
    by_cases hx : q x = true
    · rw [find?_cons_of_pos hx, Option.some.injEq] at h
      subst h
      rw [filter_cons_of_pos ha, find?_cons_of_pos hx]
    · rw [find?_cons_of_neg hx] at h
      by_cases hp : p x = true
      · rw [filter_cons_of_pos hp, find?_cons_of_neg hx, ih h]
      · rw [filter_cons_of_neg hp, ih h]

theorem dropMonitored_denier_of_enforced {r : SecRule} (h : g.denier req = some r)
    (hr : r.monitor = false) : g.dropMonitored.denier req = some r := by
  exact find?_filter_of_find? h (by simp [hr])

theorem dropMonitored_denier_eq_none (h : ¬ g.Forbidden req) :
    g.dropMonitored.denier req = none := by
  rw [denier, find?_eq_none]
  intro r hr hm
  obtain ⟨hmem, hmon⟩ := mem_filter.mp hr
  exact h ⟨r, hmem, by simpa using hmon, hm⟩

theorem observational_of_allowed (ha : g.Allowed req) : g.MonitorObservational req := by
  obtain ⟨name, hn⟩ := evalSecurity_of_allowed ha
  obtain ⟨name', hn'⟩ := evalSecurity_of_allowed (dropMonitored_allowed.mpr ha)
  refine ⟨?_, ?_, ?_, ?_⟩
  · rw [hn]
    simp [ha]
  all_goals rw [hn, hn']

theorem observational_of_enforced (hg : g.securityMonitor = false) (ha : ¬ g.Allowed req)
    {r : SecRule} (hd : g.denier req = some r) (hr : r.monitor = false) :
    g.MonitorObservational req := by
  have hn := evalSecurity_of_not_allowed ha
  have hn' := evalSecurity_of_not_allowed (g := g.dropMonitored) (dropMonitored_allowed.not.mpr ha)
  rw [hd] at hn
  rw [dropMonitored_denier_of_enforced hd hr] at hn'
  simp only [hg, hr, dropMonitored_securityMonitor] at hn hn'
  have hforb : g.Forbidden req := by
    have hm := find?_some hd
    exact ⟨r, mem_of_find?_eq_some hd, hr, hm⟩
  refine ⟨?_, ?_, ?_, ?_⟩
  · rw [hn]
    simp [ha, hforb]
  all_goals rw [hn, hn']

theorem dropMonitored_evalSecurity_of_not_forbidden (ha : ¬ g.Allowed req)
    (hf : ¬ g.Forbidden req) :
    g.dropMonitored.evalSecurity req = { rateLimit := g.evalRateLimit (context req) } := by
  rw [evalSecurity_of_not_allowed (dropMonitored_allowed.not.mpr ha),
    dropMonitored_denier_eq_none hf, dropMonitored_evalRateLimit]

theorem observational_of_no_denier (ha : ¬ g.Allowed req) (hd : g.denier req = none) :
    g.MonitorObservational req := by
  have hforb : ¬ g.Forbidden req := by
    rintro ⟨r, hr, -, hm⟩
    exact find?_eq_none.mp hd r hr hm
  have hn := evalSecurity_of_not_allowed ha
  simp only [hd] at hn
  have hn' := dropMonitored_evalSecurity_of_not_forbidden ha hforb
  refine ⟨?_, ?_, ?_, ?_⟩
  · rw [hn]
    simp [hforb]
  all_goals rw [hn, hn']

theorem evalSecurity_of_monitored (ha : ¬ g.Allowed req) {r : SecRule}
    (hd : g.denier req = some r) (hr : r.monitor = true) :
    g.evalSecurity req = { monitor := true, status := securityBlockStatus, rule := r.name } := by
  rw [evalSecurity_of_not_allowed ha, hd]
  simp [hr]

/-- **When monitoring a deny rule is observational.** On a site without the global toggle:
exactly when an allow rule matches, or the first deny rule that matches is not monitored, or
no enforced deny rule and no rate limit concerns the request. -/
theorem monitor_observational (g : SecurityGate) (req : Request)
    (hg : g.securityMonitor = false) :
    g.MonitorObservational req ↔
      g.Allowed req ∨ (∀ r, g.denier req = some r → r.monitor = false) ∨
        (¬ g.Forbidden req ∧ ¬ g.Limited req) := by
  by_cases ha : g.Allowed req
  · exact ⟨fun _ => .inl ha, fun _ => observational_of_allowed ha⟩
  rcases hd : g.denier req with _ | r
  · exact ⟨fun _ => .inr (.inl fun r hr => by cases hr), fun _ => observational_of_no_denier ha hd⟩
  rcases hr : r.monitor with _ | _
  · refine ⟨fun _ => .inr (.inl fun r' h => ?_), fun _ => observational_of_enforced hg ha hd hr⟩
    cases h
    exact hr
  -- a monitored rule comes first
  have hn := evalSecurity_of_monitored ha hd hr
  constructor
  · intro h
    have hforb : ¬ g.Forbidden req := by
      intro hf
      have hblock := h.block.mpr ⟨ha, hf⟩
      rw [hn] at hblock
      cases hblock
    refine .inr (.inr ⟨hforb, ?_⟩)
    have hrl := h.dropRateLimit
    rw [dropMonitored_evalSecurity_of_not_forbidden ha hforb, hn] at hrl
    exact evalRateLimit_eq_none_iff.mp hrl
  · rintro (h | h | ⟨hforb, hlim⟩)
    · exact absurd h ha
    · rw [h r rfl] at hr
      cases hr
    · have hn' := dropMonitored_evalSecurity_of_not_forbidden ha hforb
      rw [evalRateLimit_eq_none_iff.mpr hlim] at hn'
      refine ⟨?_, ?_, ?_, ?_⟩
      · rw [hn]
        simp [hforb]
      all_goals rw [hn, hn']

def adminRequest : Request :=
  { method := lit "GET", host := lit "example.com", path := lit "/admin", query := ∅, header := ∅
    clientIP := [], realClientIP := some (lit "203.0.113.7"), device := [], geo := []
    geoContinent := [], geoRegion := [], poolHealthy := none }

def watchedGate : SecurityGate where
  allowRules := []
  denyRules :=
    [⟨[(.method [lit "GET"], false)], true, lit "watched"⟩,
     ⟨[(.path fun p => p == lit "/admin", false)], false, lit "admin"⟩]
  securityMonitor := false
  rateLimitRules := []

theorem monitor_not_observational :
    ¬ ∀ (g : SecurityGate) (req : Request), g.securityMonitor = false →
      g.MonitorObservational req := by
  intro h
  have hdrop := (h watchedGate adminRequest rfl).dropBlock
  exact absurd hdrop (by decide)

theorem monitor_observational_alone :
    MonitorObservational { watchedGate with denyRules := watchedGate.denyRules.take 1 }
      adminRequest := by
  refine (monitor_observational _ _ rfl).mpr (.inr (.inr ⟨?_, ?_⟩))
  · rintro ⟨r, hr, hm, -⟩
    simp only [watchedGate, take, mem_singleton] at hr
    subst hr
    cases hm
  · rintro ⟨r, hr, -⟩
    cases hr

end SecurityGate

end Cadish
