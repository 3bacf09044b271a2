import Cadish.Pipeline.Credentials
import Cadish.Server.Serve

/-!
# The request handler

`serveHTTP` takes a request through the phases. A write that succeeds invalidates the stored answer
to the GET of its URI, **only in its own branch**: a write that bypasses the cache, whose key is in
a hit-for-miss window, or that carries `Cache-Control: no-cache` leaves the old answer
(`serveHTTP_forgets_iff`).
-/

namespace Cadish

inductive Flight where
  | winner
  | waiter (left succeeded : Bool)
deriving DecidableEq, Repr

structure Visit extends Exchange where
  throttled : Bool
  upgrades : Bool
  /-- another node owns the object and answers -/
  peerAnswers : Bool
  flight : Flight
  compile : Str → Option (Key → Bool)

/-- `canonicalizeRequestCookies`: the lines of the Cookie field as one line. A single line is put
back as it is. -/
def canonicalizeRequestCookies (h : Header) : Header :=
  match h.lookup (lit "Cookie") with
  | some (l :: ls) => h.insert (lit "Cookie") [Str.join (lit "; ") (l :: ls)]
  | _ => h

theorem canonicalizeRequestCookies_eq (h : Header) : canonicalizeRequestCookies h =
    if h.values (lit "Cookie") = [] then h else h.insert (lit "Cookie") [h.cookieLine] := by
  rw [canonicalizeRequestCookies, Header.cookieLine, Header.values, Header.canonicalKey_cookie]
  rcases h.lookup (lit "Cookie") with _ | _ | ⟨l, ls⟩ <;> rfl

def clientForcesRevalidate (h : Header) : Bool :=
  (Str.split (Str.byte ',') (h.get (lit "Cache-Control"))).any (fun tok =>
    [lit "no-cache", lit "max-age=0"].elem (Str.toLower (Str.trimSpace tok))) ||
  (Str.split (Str.byte ',') (h.get (lit "Pragma"))).any fun tok =>
    Str.equalFold (Str.trimSpace tok) (lit "no-cache")

/-- `restoreClientCookie`, and the restore of `siblingGetKey`: the Cookie field put back. -/
def Request.withCookie (req : Request) (cookie : Str) : Request :=
  { req with header := Pipeline.setCookieField req.header cookie }

def Outcome.invalidating (out : Outcome) (getKey : Key) : Outcome :=
  if getKey ≠ [] ∧ 200 ≤ out.answer.recorded ∧ out.answer.recorded < 400 then
    { out with fresh := out.fresh.forget getKey }
  else out

namespace Pipeline

variable (p : Pipeline) (v : Visit) (f : Freshness)

variable {r : HTTPReply} {req : Request}

def siblingGetKey (req : Request) (unsafeKey : Key) (origCookie : Str) : Key :=
  let k := (p.evalRequest { req.withCookie origCookie with method := lit "GET" }).cacheKey
  if k = [] then unsafeKey else k

/-- `serveMiss`: only a GET of a whole object is coalesced. -/
def serveMiss (req : Request) (selKey : Option (List KeyToken)) (key : Key) : Outcome :=
  if req.header.get (lit "Range") = [] ∧ (req.method = [] ∨ req.method = lit "GET") then
    match v.flight with
    | .winner => p.serveOrigin v.toExchange f req selKey key true
    | .waiter left succeeded =>
      if left then ⟨f, [], .nothing, false⟩
      else
        match if succeeded then v.serveFromCache .hit key else none with
        | some a => ⟨f, [], a, false⟩
        | none => p.serveOrigin v.toExchange f req selKey key true
  else p.serveOrigin v.toExchange f req selKey key true

/-- The branch of a write: fetch with the client's own cookies, and on success forget the stored
answer to the GET. -/
def serveUnsafe (req : Request) (selKey : Option (List KeyToken)) (key : Key)
    (origCookie origClientCookie : Str) : Outcome :=
  let getKey := p.siblingGetKey req key origCookie
  (p.serveMiss v f (req.withCookie origClientCookie) selKey key).invalidating getKey

def revalidates (req : Request) : Bool :=
  !p.ignoreClientRevalidation && clientForcesRevalidate req.header

def serveKeyed (req : Request) (rd : RequestDecision) (origCookie origClientCookie : Str) :
    Outcome :=
  let key := rd.cacheKey
  let c := f.classify v.now key
  if c.2.2 then p.serveOrigin v.toExchange c.1 req rd.selKey key false
  else if p.revalidates req then p.serveMiss v c.1 req rd.selKey key
  else if !isSafeMethod req.method then
    p.serveUnsafe v c.1 req rd.selKey key origCookie origClientCookie
  else
    match match c.2.1 with
      | .fresh => v.serveFromCache .hit key
      | .stale => v.serveFromCache .hitStale key
      | .miss => none with
    | some a => ⟨c.1, [], a, false⟩
    | none => p.serveMiss v c.1 req rd.selKey key

/-- A purge: a pattern that compiles is a ban, anything else drops the key. -/
def servePurge (regex : Str) (key : Key) : Outcome :=
  match if regex = [] then none else v.compile regex with
  | some re => ⟨(f.ban v.now re).1, [], .status 200, false⟩
  | none => ⟨if key = [] then f else f.forget key, [], .status 200, false⟩

def bypasses (req : Request) (rd : RequestDecision) : Bool :=
  rd.pass ||
    (!p.cacheCredentialedMatches (p.context req none) && p.bypassForCredentials req rd.selKey)

def serveDecided (req : Request) (rd : RequestDecision) (origCookie origClientCookie : Str) :
    Outcome :=
  match rd.synthetic, rd.redirect, rd.purge with
  | some s, _, _ => ⟨f, [], .synthetic s, false⟩
  | none, some r, _ => ⟨f, [], .redirect r, false⟩
  | none, none, some regex => servePurge v f regex rd.cacheKey
  | none, none, none =>
    if rd.upgrade && v.upgrades then ⟨f, [], .handedOver, false⟩
    else if p.bypasses req rd then
      p.serveOrigin v.toExchange f (req.withCookie origClientCookie) rd.selKey [] false
    else if v.peerAnswers && (req.method == lit "GET" || req.method == lit "HEAD") then
      ⟨f, [], .handedOver, false⟩
    else p.serveKeyed v f req rd origCookie origClientCookie

/-- The request as the phases see it: one Cookie line, with the cookies the site allows. -/
def normalised (req : Request) : Request :=
  p.filtered { req with header := canonicalizeRequestCookies req.header }

def serveHTTP (req : Request) : Outcome :=
  let raw := { req with header := canonicalizeRequestCookies req.header }
  let sec := p.gate.evalSecurity raw
  if sec.block then ⟨f, [], .status sec.status, false⟩
  else if sec.rateLimit.any fun hit => v.throttled && !hit.monitor then ⟨f, [], .status 429, false⟩
  else
    let req := p.normalised req
    let rd := p.evalRequest req
    -- the cookies after the filter, for the key of a GET; only a write needs them
    let origCookie := if isSafeMethod req.method then [] else req.header.get (lit "Cookie")
    p.serveDecided v f (p.stripDerivedCookies rd.selKey req) rd origCookie
      (raw.header.get (lit "Cookie"))

/-! ## Answers from the origin -/

variable {p v f}

theorem fetched_invalidating (out : Outcome) (k : Key) :
    (out.invalidating k).fetched = out.fetched := by
  rw [Outcome.invalidating]
  split <;> rfl

theorem answer_invalidating (out : Outcome) (k : Key) :
    (out.invalidating k).answer = out.answer := by
  rw [Outcome.invalidating]
  split <;> rfl

theorem fetched_servePurge (regex : Str) (key : Key) : (servePurge v f regex key).fetched = [] := by
  rw [servePurge]
  split <;> rfl

theorem serveDecided_cases {sent : Request} {rd : RequestDecision} {origCookie orig : Str}
    (hr : r ∈ (p.serveDecided v f sent rd origCookie orig).fetched) :
    (p.bypasses sent rd = true ∧ p.serveDecided v f sent rd origCookie orig =
      p.serveOrigin v.toExchange f (sent.withCookie orig) rd.selKey [] false) ∨
    (p.bypasses sent rd = false ∧ p.serveDecided v f sent rd origCookie orig =
      p.serveKeyed v f sent rd origCookie orig) := by
  simp only [serveDecided] at hr ⊢
  cases hsyn : rd.synthetic with
  | some s => simp [hsyn] at hr
  | none =>
    cases hred : rd.redirect with
    | some s => simp [hsyn, hred] at hr
    | none =>
      cases hpurge : rd.purge with
      | some regex => simp [hsyn, hred, hpurge, fetched_servePurge] at hr
      | none =>
        simp only [hsyn, hred, hpurge] at hr ⊢
        split at hr
        · simp at hr
        case isFalse hup =>
          rw [if_neg hup]
          cases hb : p.bypasses sent rd with
          | true => exact .inl ⟨rfl, by simp⟩
          | false =>
            refine .inr ⟨rfl, ?_⟩
            simp only [hb, Bool.false_eq_true, if_false] at hr ⊢
            split at hr
            · simp at hr
            case isFalse hpeer => rw [if_neg hpeer]

theorem serveMiss_origin {selKey : Option (List KeyToken)} {key : Key}
    (hr : r ∈ (p.serveMiss v f req selKey key).fetched) :
    p.serveMiss v f req selKey key = p.serveOrigin v.toExchange f req selKey key true := by
  simp only [serveMiss] at hr ⊢
  split at hr
  case isTrue hco =>
    rw [if_pos hco]
    split at hr
    · rfl
    split at hr
    · simp at hr
    case isFalse hleft =>
      rw [if_neg hleft]
      split at hr
      · simp at hr
      · rfl
  case isFalse hco => rw [if_neg hco]

def AnswersAsFetch (p : Pipeline) (v : Visit) (out : Outcome) : Prop :=
  ∃ f req selKey key store,
    out.answer = (p.serveOrigin v.toExchange f req selKey key store).answer ∧
      out.fetched = (p.serveOrigin v.toExchange f req selKey key store).fetched

theorem serveKeyed_origin {rd : RequestDecision} {origCookie orig : Str}
    (hr : r ∈ (p.serveKeyed v f req rd origCookie orig).fetched) :
    p.AnswersAsFetch v (p.serveKeyed v f req rd origCookie orig) := by
  simp only [serveKeyed] at hr ⊢
  split
  · exact ⟨_, _, _, _, _, rfl, rfl⟩
  case isFalse hfm =>
    rw [if_neg hfm] at hr
    split
    case isTrue hrev =>
      rw [if_pos hrev] at hr
      rw [serveMiss_origin hr]
      exact ⟨_, _, _, _, _, rfl, rfl⟩
    case isFalse hrev =>
      rw [if_neg hrev] at hr
      split
      case isTrue hwrite =>
        rw [if_pos hwrite, serveUnsafe, fetched_invalidating] at hr
        rw [serveUnsafe, serveMiss_origin hr]
        exact ⟨_, _, _, _, _, answer_invalidating _ _, fetched_invalidating _ _⟩
      case isFalse hwrite =>
        rw [if_neg hwrite] at hr
        split at hr
        · simp at hr
        · rw [serveMiss_origin hr]
          exact ⟨_, _, _, _, _, rfl, rfl⟩

theorem serveHTTP_origin (hr : r ∈ (p.serveHTTP v f req).fetched) :
    p.AnswersAsFetch v (p.serveHTTP v f req) := by
  simp only [serveHTTP] at hr ⊢
  split at hr
  · simp at hr
  split at hr
  · simp at hr
  case isFalse hblock hlimit =>
    rw [if_neg hblock, if_neg hlimit]
    obtain ⟨-, heq⟩ | ⟨-, heq⟩ := serveDecided_cases hr
    · rw [heq]
      exact ⟨_, _, _, _, _, rfl, rfl⟩
    · rw [heq] at hr ⊢
      exact serveKeyed_origin hr

end Pipeline

end Cadish
