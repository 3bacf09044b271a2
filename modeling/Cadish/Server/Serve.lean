import Cadish.Origin.Fetch
import Cadish.Pipeline.Response
import Cadish.Server.Freshness

/-!
# Answering from the origin

`serveOrigin` answers with what the origin replied; `handleOriginError` with a stored object inside
its `max_stale` window, a negative entry, the page of an `on_error` rule, the origin's own error, or
a bare status. **A 201 or a 204 is an error here** (`serveOrigin_answers_iff`).
-/

namespace Cadish

inductive CacheStatus where
  | hit
  | hitStale
  | hitStaleError
deriving DecidableEq, Repr

inductive Answer where
  | reply (r : HTTPReply)
  | cached (why : CacheStatus) (status : Nat) (m : ObjectMeta)
  | negative (code : Nat)
  | page (e : OnError)
  | status (code : Nat)
  | synthetic (s : Synthetic)
  | redirect (r : Redirect)
  | handedOver
  | nothing

/-- The status the response recorder holds; it starts at 200. -/
def Answer.recorded : Answer → Nat
  | .reply r => r.status
  | .cached _ st _ => st
  | .negative code => code
  | .page e => e.status
  | .status code => code
  | .synthetic s => s.status
  | .redirect r => r.status
  | .handedOver => 200
  | .nothing => 200

/-- How the Range field of a request reads against a stored object. -/
inductive RangeAnswer where
  | ignored
  | satisfiable
  | unsatisfiable
deriving DecidableEq, Repr

structure Exchange where
  now : Instant
  origin : Option Origin
  body : Bool
  gone : Bool
  object : Key → Option ObjectMeta
  accepts : Str → Bool
  /-- its preconditions say that the client's copy of the object is current -/
  notModified : ObjectMeta → Bool
  range : ObjectMeta → RangeAnswer
  /-- the tier writer takes what it is given and commits it -/
  commits : Bool

structure Outcome where
  fresh : Freshness
  fetched : List HTTPReply
  answer : Answer
  committed : Bool

def isSafeMethod (m : Str) : Bool := m == [] || m == lit "GET" || m == lit "HEAD"

namespace Exchange

variable (x : Exchange)

def cachedStatus (m : ObjectMeta) : Nat :=
  if m.effectiveStatus = 200 then
    if x.notModified m then 304
    else if 0 < m.size then
      match x.range m with
      | .satisfiable => 206
      | .unsatisfiable => 416
      | .ignored => 200
    else 200
  else m.effectiveStatus

def serveFromCache (why : CacheStatus) (key : Key) : Option Answer :=
  match x.object key with
  | none => none
  | some m =>
    if m.contentEncoding ≠ [] ∧ ¬x.accepts m.contentEncoding then none
    else some (.cached why (x.cachedStatus m) m)

/-- The stored object that stands in for a failing origin. -/
def maxStale (f : Freshness) (key : Key) : Option Answer :=
  if key ≠ [] ∧ f.staleWithin x.now key then x.serveFromCache .hitStaleError key else none

end Exchange

/-! ## The error path -/

def FetchError.code (e : FetchError) : Nat :=
  match e with
  | notFound => 404
  | noBackend => 503
  | _ => if 400 ≤ e.statusOf ∧ e.statusOf < 600 then e.statusOf else 502

def FetchError.header : FetchError → Option Header
  | reply r => some r.header
  | _ => none

def FetchError.isNotFound : FetchError → Bool
  | notFound => true
  | _ => false

namespace Pipeline

variable (p : Pipeline)

variable {r : HTTPReply} {replies : List HTTPReply}

/-- The response decision of a failed fetch: only a definite status is looked up. -/
def errorDecision (req : Request) (selKey : Option (List KeyToken)) (e : FetchError) :
    ResponseDecision :=
  if e.isNotFound ∨ (400 ≤ e.statusOf ∧ e.statusOf < 600) then
    p.evalResponse req selKey e.code e.header
  else {}

/-- The last resort: an error page, the origin's own error, or a bare status. -/
def errorAnswer (req : Request) (e : FetchError) : Answer :=
  match p.evalOnError req with
  | some page => .page page
  | none =>
    match e with
    | .reply r => .reply r
    | e => .status e.code

variable (x : Exchange) (f : Freshness) (req : Request) (selKey : Option (List KeyToken))
  (key : Key) (store : Bool)

def handleOriginError (replies : List HTTPReply) (e : FetchError) : Outcome :=
  match x.maxStale f key with
  | some a => ⟨f, replies, a, false⟩
  | none =>
    let sd := p.errorDecision req selKey e
    if store && key != [] && sd.cacheable && isSafeMethod req.method then
      -- `storeAndServeNegative`: a bodyless entry, with no `max_stale` window
      ⟨if x.commits then f.store x.now key sd.ttl sd.grace 0 else f, replies, .negative e.code,
        x.commits⟩
    else if e.isNotFound then ⟨f, replies, .status 404, false⟩
    else if x.gone then ⟨f, replies, .nothing, false⟩
    else
      ⟨if 0 < sd.hitForMiss ∧ key ≠ [] then f.setHitForMiss x.now key sd.hitForMiss else f,
        replies, p.errorAnswer req e, false⟩

/-! ## The origin path -/

/-- The request body that is forwarded: only a method other than GET and HEAD has one. -/
def forwardsBody : Bool := req.method != lit "GET" && req.method != lit "HEAD" && x.body

def marks (r : HTTPReply) : Bool :=
  decide (0 < (p.evalResponse req selKey r.status (some r.header)).hitForMiss) && key != []

def storable (r : HTTPReply) (negative : Bool) : Bool :=
  let sd := p.evalResponse req selKey r.status (some r.header)
  store && !p.marks req selKey key r && key != [] && sd.cacheable &&
    (r.status == 200 || negative) && isSafeMethod req.method

def serveResponse (replies : List HTTPReply) (r : HTTPReply) (negative : Bool) : Outcome :=
  match if negative then x.maxStale f key else none with
  | some a => ⟨f, replies, a, false⟩
  | none =>
    let sd := p.evalResponse req selKey r.status (some r.header)
    let f := if p.marks req selKey key r then f.setHitForMiss x.now key sd.hitForMiss else f
    if p.storable req selKey key store r negative && req.method != lit "HEAD" && x.commits then
      ⟨f.store x.now key sd.ttl sd.grace sd.maxStale, replies, .reply r, true⟩
    else ⟨f, replies, .reply r, false⟩

def serveOrigin : Outcome :=
  match x.origin with
  | none => ⟨f, [], .status 502, false⟩
  | some o =>
    let got := o.fetch (forwardsBody x req)
    match got.2 with
    | .response r negative => p.serveResponse x f req selKey key store got.1 r negative
    | .error e => p.handleOriginError x f req selKey key store got.1 e

/-- `revalidate`: the background fetch of a stale key. It stores what is cacheable, and answers
nobody. -/
def revalidate : Freshness :=
  match x.origin with
  | none => f
  | some o =>
    match (o.fetch false).2 with
    | .error e =>
      let sd := if e.isNotFound ∨ (400 ≤ e.statusOf ∧ e.statusOf < 600) then
        p.evalResponse req selKey e.code none else {}
      if sd.cacheable && x.commits then f.store x.now key sd.ttl sd.grace 0 else f
    | .response r _ =>
      let sd := p.evalResponse req selKey r.status (some r.header)
      if !sd.cacheable || r.status != 200 then
        if 0 < sd.hitForMiss then f.setHitForMiss x.now key sd.hitForMiss else f
      else if x.commits then f.store x.now key sd.ttl sd.grace sd.maxStale
      else f

/-! ## When a success reaches the client -/

variable {p x f req selKey key store}

theorem errorDecision_of_success (hs : r.Success) : p.errorDecision req selKey (.reply r) = {} := by
  have h2 := hs.2
  rw [errorDecision, if_neg]
  simp only [FetchError.isNotFound, FetchError.statusOf, Bool.false_eq_true, false_or]
  omega

theorem handleOriginError_of_success (hs : r.Success) :
    p.handleOriginError x f req selKey key store replies (.reply r) =
      ⟨f, replies, ((x.maxStale f key).getD
        (if x.gone then .nothing else p.errorAnswer req (.reply r))), false⟩ := by
  rw [handleOriginError, errorDecision_of_success hs]
  cases x.maxStale f key with
  | some a => rfl
  | none =>
    simp only [Bool.and_false, Bool.false_and, Bool.false_eq_true, if_false, FetchError.isNotFound,
      Option.getD_none]
    split
    · rfl
    · rw [if_neg fun h => absurd h.1 (by decide)]

theorem maxStale_ne_reply {a : Answer} (h : x.maxStale f key = some a) (r : HTTPReply) :
    a ≠ .reply r := by
  rintro rfl
  simp only [Exchange.maxStale, Exchange.serveFromCache] at h
  split at h
  · split at h
    · cases h
    · split at h <;> simp at h
  · cases h

theorem answer_serveResponse :
    (p.serveResponse x f req selKey key store replies r false).answer = .reply r := by
  simp only [serveResponse, Bool.false_eq_true, if_false]
  split <;> rfl

theorem fetched_serveResponse {negative : Bool} :
    (p.serveResponse x f req selKey key store replies r negative).fetched = replies := by
  rw [serveResponse]
  split
  · rfl
  · dsimp only
    split <;> rfl

theorem fetched_serveOrigin {o : Origin} (ho : x.origin = some o) :
    (p.serveOrigin x f req selKey key store).fetched = (o.fetch (forwardsBody x req)).1 := by
  simp only [serveOrigin, ho]
  split
  · exact fetched_serveResponse
  · simp only [handleOriginError]
    repeat' split
    all_goals rfl

theorem serveOrigin_of_success (hr : r ∈ (p.serveOrigin x f req selKey key store).fetched)
    (hs : r.Success) :
    ∃ replies, replies.getLast? = some r ∧
      ((r.Direct ∧ p.serveOrigin x f req selKey key store =
        p.serveResponse x f req selKey key store replies r false) ∨
      (¬r.Direct ∧ p.serveOrigin x f req selKey key store =
        p.handleOriginError x f req selKey key store replies (.reply r))) := by
  cases ho : x.origin with
  | none => simp [serveOrigin, ho] at hr
  | some o =>
    have hfetched : r ∈ (o.fetch (forwardsBody x req)).1 := by
      rwa [fetched_serveOrigin ho] at hr
    obtain ⟨hlast, hcarries⟩ := Origin.fetch_carries hfetched hs
    refine ⟨(o.fetch (forwardsBody x req)).1, hlast, ?_⟩
    rw [serveOrigin, ho]
    obtain ⟨hd, hout⟩ | ⟨hd, hout⟩ := hcarries
    · exact .inl ⟨hd, by simp only [hout]⟩
    · exact .inr ⟨hd, by simp only [hout]⟩

variable (p x f req key) in
/-- No substitute stands ready for a reply that counts as an error. -/
def NoSubstitute : Prop :=
  x.maxStale f key = none ∧ x.gone = false ∧ p.evalOnError req = none

/-- The client is answered with a reply, and no server was asked after the one that gave it. -/
def Answers (out : Outcome) (r : HTTPReply) : Prop :=
  out.answer = .reply r ∧ out.fetched.getLast? = some r

variable (p x f req selKey key store) in
/-- **When a success reaches the client.** For every site, freshness index and origin, a request
whose fetch receives a success is answered with that reply exactly when its status is 200, 206 or
a redirect, or no stored object and no error page stands ready to take its place. -/
theorem serveOrigin_answers_iff (r : HTTPReply)
    (hr : r ∈ (p.serveOrigin x f req selKey key store).fetched) (hs : r.Success) :
    Answers (p.serveOrigin x f req selKey key store) r ↔
      r.Direct ∨ p.NoSubstitute x f req key := by
  obtain ⟨replies, hlast, ⟨hd, heq⟩ | ⟨hd, heq⟩⟩ := serveOrigin_of_success hr hs
  · rw [heq, Answers, answer_serveResponse, fetched_serveResponse]
    exact iff_of_true ⟨rfl, hlast⟩ (.inl hd)
  rw [heq, Answers, handleOriginError_of_success hs, NoSubstitute]
  cases hstale : x.maxStale f key with
  | some a =>
    exact iff_of_false (fun h => maxStale_ne_reply hstale r h.1) (by simp [hd])
  | none =>
    cases x.gone with
    | true => simp [hd]
    | false => cases hpage : p.evalOnError req <;> simp [errorAnswer, hpage, hd, hlast]

def repliedWith (r : HTTPReply) : Exchange where
  now := 0
  origin := some (.http (some r))
  body := true
  gone := false
  object _ := none
  accepts _ := true
  notModified _ := false
  range _ := .ignored
  commits := true

def maintenanceSite : Pipeline :=
  { bare with onErrorRules := [(none, ⟨503, lit "back soon", lit "text/plain"⟩)] }

def formPost : Request := { Request.get (lit "/form") ∅ with method := lit "POST" }

theorem serveOrigin_replaces_created :
    ¬∀ (p : Pipeline) (x : Exchange) (f : Freshness) (req : Request)
      (selKey : Option (List KeyToken)) (key : Key) (store : Bool) (r : HTTPReply),
      r ∈ (p.serveOrigin x f req selKey key store).fetched → r.Success →
        Answers (p.serveOrigin x f req selKey key store) r := by
  intro h
  have hmem : (⟨201, ∅, []⟩ : HTTPReply) ∈ (maintenanceSite.serveOrigin
      (repliedWith ⟨201, ∅, []⟩) .new formPost none [] false).fetched := by
    rw [fetched_serveOrigin rfl]
    simp [Origin.fetch]
  have hs : HTTPReply.Success ⟨201, ∅, []⟩ := by decide
  have hr := (h _ _ _ _ _ _ _ _ hmem hs).1
  have hpage : maintenanceSite.evalOnError formPost =
      some ⟨503, lit "back soon", lit "text/plain"⟩ := rfl
  obtain ⟨replies, -, ⟨hd, -⟩ | ⟨-, heq⟩⟩ := serveOrigin_of_success hmem hs
  · exact absurd hd (by decide)
  · rw [heq, handleOriginError_of_success hs] at hr
    simp [Exchange.maxStale, errorAnswer, hpage, repliedWith] at hr

theorem serveOrigin_answers_ok :
    Answers (maintenanceSite.serveOrigin (repliedWith ⟨200, ∅, []⟩) .new formPost none [] false)
      ⟨200, ∅, []⟩ :=
  (serveOrigin_answers_iff maintenanceSite (repliedWith ⟨200, ∅, []⟩) .new formPost none [] false
    ⟨200, ∅, []⟩ (by rw [fetched_serveOrigin rfl]; simp [Origin.fetch]) (by decide)).mpr
      (.inl (by decide))

end Pipeline

end Cadish
