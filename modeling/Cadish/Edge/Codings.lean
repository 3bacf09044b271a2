import Cadish.Edge.Tiers
import Cadish.Pipeline.Vocabulary
import Cadish.Server.Handler

/-!
# Content codings of stored copies

A stored copy has the coding that the origin chose for another client. The server serves it only to
a client that accepts that coding. The worker asks too before it answers from its tiers, **but not
before it lets a copy stand in for a failing origin** (`stored_admitted_iff`).
-/

namespace Cadish

open List Str

/-! ## Accept-Encoding -/

/-- An element of the field: the coding it names, and whether its weight is other than 0. -/
def acceptItem (part : Str) : Str × Bool :=
  let tok := trimSpace part
  let item : Str × Str :=
    match tok.cut (byte ';') with
    | none => (tok, lit "1")
    | some (name, params) =>
      match cutString (lit "q=") (toLower params) with
      | none => (trimSpace name, lit "1")
      | some (before, _) => (trimSpace name, trimSpace (params.drop (before.length + 2)))
  (item.1, !([lit "0", lit "0.0", lit "0.00", lit "0.000"].elem item.2))

/-- The loop over the elements, with the verdict of the last `*`. -/
def acceptLoop (fold : Str → Str) (coding : Str) : Bool → List (Str × Bool) → Bool
  | star, [] => star
  | star, (tok, accepted) :: items =>
    if fold tok = fold coding then accepted
    else acceptLoop fold coding (if tok = lit "*" then accepted else star) items

/-- `clientAcceptsEncoding`, of the server and of the worker: they differ in how they compare names
without their case. -/
def acceptsEncoding (fold : Str → Str) (acceptEncoding coding : Str) : Bool :=
  if coding = [] ∨ fold coding = lit "identity" then true
  else acceptLoop fold coding false ((split (byte ',') acceptEncoding).map acceptItem)

def clientAcceptsEncoding : Str → Str → Bool := acceptsEncoding (foldBytes 0)

def Edge.clientAcceptsEncoding : Str → Str → Bool := acceptsEncoding toLower

/-- What Accept-Encoding admits: no coding at all, and one for which the first element that names
it, or else the last `*`, has a weight other than 0. -/
def Admits (fold : Str → Str) (acceptEncoding coding : Str) : Prop :=
  let items := (split (byte ',') acceptEncoding).map acceptItem
  coding = [] ∨ fold coding = lit "identity" ∨
    ((items.find? fun i => fold i.1 = fold coding).or
      (items.reverse.find? fun i => i.1 = lit "*")).any Prod.snd

theorem acceptLoop_eq (fold : Str → Str) (coding : Str) (star : Bool) (items : List (Str × Bool)) :
    acceptLoop fold coding star items = (((items.find? fun i => fold i.1 = fold coding).or
      (items.reverse.find? fun i => i.1 = lit "*")).elim star Prod.snd) := by
  induction items generalizing star with
  | nil => rfl
  | cons i items ih =>
    obtain ⟨tok, accepted⟩ := i
    by_cases hname : fold tok = fold coding
    · simp [acceptLoop, hname]
    rw [acceptLoop, ih, reverse_cons, find?_append]
    cases hfirst : items.find? fun i => fold i.1 = fold coding with
    | some i => simp [hname, hfirst]
    | none =>
      cases hstar : items.reverse.find? fun i => i.1 = lit "*" with
      | some i => simp [hname, hfirst]
      | none =>
        by_cases h : tok = lit "*"
        · subst h
          simp [hname, hfirst]
        · simp [hname, hfirst, h]

theorem acceptsEncoding_iff {fold : Str → Str} {acceptEncoding coding : Str} :
    acceptsEncoding fold acceptEncoding coding ↔ Admits fold acceptEncoding coding := by
  rw [acceptsEncoding, Admits, acceptLoop_eq]
  by_cases h : coding = [] ∨ fold coding = lit "identity"
  · simp [h, ← or_assoc]
  · simp only [h, ← or_assoc, false_or]
    generalize Option.or _ _ = item
    cases item <;> rfl

/-! ## The server -/

/-- A stored copy that is the answer is one the client accepts. -/
def Answer.Accepted (x : Exchange) (a : Answer) : Prop :=
  ∀ why st m, a = .cached why st m → m.contentEncoding = [] ∨ x.accepts m.contentEncoding

namespace Pipeline

variable {x : Exchange} {v : Visit} {f : Freshness} {req : Request} {key : Key} {a : Answer}

theorem accepted_serveFromCache {why : CacheStatus} (h : x.serveFromCache why key = some a) :
    a.Accepted x := by
  rintro why' st m rfl
  simp only [Exchange.serveFromCache] at h
  split at h
  · cases h
  · grind

theorem accepted_maxStale (h : x.maxStale f key = some a) : a.Accepted x := by
  rw [Exchange.maxStale] at h
  split at h
  · exact accepted_serveFromCache h
  · cases h

variable (p : Pipeline)

variable (selKey : Option (List KeyToken))

theorem accepted_handleOriginError (store : Bool) (replies : List HTTPReply) (e : FetchError) :
    (p.handleOriginError x f req selKey key store replies e).answer.Accepted x := by
  simp only [handleOriginError]
  split
  case h_1 a ha => exact accepted_maxStale ha
  case h_2 =>
    split_ifs
    · rintro _ _ _ ⟨⟩
    · rintro _ _ _ ⟨⟩
    · rintro _ _ _ ⟨⟩
    · rintro _ _ _ ⟨⟩
    all_goals
      simp only [errorAnswer]
      split
      · rintro _ _ _ ⟨⟩
      · split <;> rintro _ _ _ ⟨⟩

theorem accepted_serveOrigin (store : Bool) :
    (p.serveOrigin x f req selKey key store).answer.Accepted x := by
  rw [serveOrigin]
  split
  · rintro _ _ _ ⟨⟩
  dsimp only
  split
  · simp only [serveResponse]
    split
    case h_1 a ha =>
      split at ha
      · exact accepted_maxStale ha
      · cases ha
    case h_2 => split_ifs <;> rintro _ _ _ ⟨⟩
  · exact p.accepted_handleOriginError selKey store _ _

theorem accepted_serveMiss : (p.serveMiss v f req selKey key).answer.Accepted v.toExchange := by
  rw [serveMiss]
  split
  · split
    · exact p.accepted_serveOrigin selKey true
    split
    · rintro _ _ _ ⟨⟩
    split
    case h_1 a ha =>
      split at ha
      · exact accepted_serveFromCache ha
      · cases ha
    case h_2 => exact p.accepted_serveOrigin selKey true
  · exact p.accepted_serveOrigin selKey true

theorem accepted_serveKeyed (rd : RequestDecision) (origCookie origClientCookie : Str) :
    (p.serveKeyed v f req rd origCookie origClientCookie).answer.Accepted v.toExchange := by
  simp only [serveKeyed]
  split_ifs
  · exact p.accepted_serveOrigin _ _
  · exact p.accepted_serveMiss _
  · rw [serveUnsafe, answer_invalidating]
    exact p.accepted_serveMiss _
  · split
    case h_1 a ha =>
      split at ha
      · exact accepted_serveFromCache ha
      · exact accepted_serveFromCache ha
      · cases ha
    case h_2 => exact p.accepted_serveMiss _

theorem accepted_serveDecided (rd : RequestDecision) (origCookie origClientCookie : Str) :
    (p.serveDecided v f req rd origCookie origClientCookie).answer.Accepted v.toExchange := by
  rw [serveDecided]
  split
  · rintro _ _ _ ⟨⟩
  · rintro _ _ _ ⟨⟩
  · rw [servePurge]
    split <;> rintro _ _ _ ⟨⟩
  · split_ifs
    · rintro _ _ _ ⟨⟩
    · exact p.accepted_serveOrigin _ _
    · rintro _ _ _ ⟨⟩
    · exact p.accepted_serveKeyed _ _ _

theorem accepted_serveHTTP (req : Request) :
    (p.serveHTTP v f req).answer.Accepted v.toExchange := by
  rw [serveHTTP]
  split
  · rintro _ _ _ ⟨⟩
  · split
    · rintro _ _ _ ⟨⟩
    · exact p.accepted_serveDecided _ _ _

end Pipeline

/-! ## The worker -/

namespace Edge

section Worker

variable {ν : Type} [LinearOrder ν] [Add ν] [Sub ν] [Zero ν]

/-- What the tiers hold under a key. -/
structure Tiers (ν : Type) where
  l1 : Option Response
  l2 : Option (Str × Windows ν)
  distribute : Bool

variable (rt : Runtime ν) (t : Tiers ν) (now : ν)

/-- The first of the copies that is open. -/
def Tiers.lookup : Option (FreshState × Response) :=
  let answer : Response × Windows ν → Option (FreshState × Response) := fun c =>
    if c.2.state now = .miss then none else some (c.2.state now, c.1)
  ((t.l1.bind (readL1 rt)).bind answer).or
    (if t.distribute then (t.l2.bind (readL2 rt)).bind answer else none)

def Tiers.peek : Option Response :=
  let within : Response × Windows ν → Option Response := fun c =>
    if c.2.withinMaxStale now then some c.1 else none
  ((t.l1.bind (readL1 rt)).bind within).or ((t.l2.bind (readL2 rt)).bind within)

inductive Fetched where
  | throws
  | response (status : Nat)

inductive Delivery where
  | stored (why : CacheStatus) (r : Response)
  | origin (status : Nat)
  | page
  | badGateway

def Response.coding (r : Response) : Str := (r.headers.lookup (lit "content-encoding")).getD []

/-- A request to the worker, as far as stored copies go. -/
structure Arrival where
  acceptEncoding : Str
  bypasses : Bool
  fetched : Fetched
  /-- an `on_error` rule has a page for it -/
  onError : Bool
  /-- the status that the origin answers with is to be cached -/
  cacheable : Bool

variable (a : Arrival)

/-- The lookup with the encoding guard. -/
def found : Option (FreshState × Response) :=
  (t.lookup rt now).filter fun c =>
    c.2.coding == [] || clientAcceptsEncoding a.acceptEncoding c.2.coding

def onErrorOr502 : Delivery := if a.onError then .page else .badGateway

/-- `handle`, for a request that the rules let through to the cache or to the origin. -/
def handle : Delivery :=
  if a.bypasses then
    match a.fetched with
    | .throws => onErrorOr502 a
    | .response status => .origin status
  else
    match found rt t now a with
    | some (.fresh, r) => .stored .hit r
    | some (_, r) => .stored .hitStale r
    | none =>
      match a.fetched with
      | .throws =>
        match t.peek rt now with
        | some r => .stored .hitStaleError r
        | none => onErrorOr502 a
      | .response status =>
        if status < 400 then .origin status
        else
          match t.peek rt now with
          | some r => .stored .hitStaleError r
          -- `handleOriginResponseError`; a 404 or 410 goes the way of any response
          | none =>
            if status = 404 ∨ status = 410 ∨ a.cacheable ∨ !a.onError then .origin status else .page

/-- A copy may stand in: nothing in the tiers answers the client, and the origin fails. -/
def Fetched.fails : Fetched → Bool
  | .throws => true
  | .response status => 400 ≤ status

variable {rt t now a} in
theorem handle_salvages {r : Response} (hb : a.bypasses = false) (hf : found rt t now a = none)
    (hfails : a.fetched.fails) (hr : t.peek rt now = some r)
    : handle rt t now a = .stored .hitStaleError r := by
  cases hfetched : a.fetched with
  | throws => simp [handle, hb, hf, hfetched, hr]
  | response status =>
    have hstatus : ¬status < 400 := by simpa [Fetched.fails, hfetched] using hfails
    simp [handle, hb, hf, hfetched, hr, hstatus]

variable {rt t now a} in
theorem handle_stored {why : CacheStatus} {r : Response} (h : handle rt t now a = .stored why r)
    : a.bypasses = false ∧
      ((∃ s, found rt t now a = some (s, r)) ∨
        found rt t now a = none ∧ a.fetched.fails ∧ t.peek rt now = some r) := by
  rw [handle] at h
  grind [onErrorOr502, Fetched.fails]

end Worker

end Edge

end Cadish
