import Cadish.Server.Handler

/-!
# Writes and the stored answers they make stale

After a write that succeeds, the entry of the GET of the same URI should be gone. `serveHTTP_write`
reduces the handler to one fetch and the invalidation; the fetch stores nothing, and at most marks
its own key (`lookup_serveOrigin_write`); `siblingGetKey_stripped` says which key is dropped. A
blank Cookie line is the one thing it does not put back.
-/

namespace Cadish

open Freshness

namespace Pipeline

variable (p : Pipeline) (v : Visit) (f : Freshness) (req : Request)

/-! ## The parts of a write -/

def decided : RequestDecision := p.evalRequest (p.normalised req)

def stripped : Request := p.stripDerivedCookies (p.decided req).selKey (p.normalised req)

def restored : Request :=
  (p.stripped req).withCookie ((canonicalizeRequestCookies req.header).get (lit "Cookie"))

def getKey : Key := (p.decided { req with method := lit "GET" }).cacheKey

def bypassed : Bool := p.bypasses (p.stripped req) (p.decided req)

def classified : Freshness × FreshState × Bool := f.classify v.now (p.decided req).cacheKey

/-- The write gets to its own branch: it does not bypass the cache, its own key is in no
hit-for-miss window, and it asks for no revalidation. -/
def ReachesWrite : Prop :=
  p.bypassed req = false ∧ (p.classified v f req).2.2 = false ∧ p.revalidates (p.stripped req) = false

/-- A fetch for a write: the index it starts from, the request it sends and the key it is for. -/
structure Attempt where
  fresh : Freshness
  req : Request
  key : Key

def attempt : Attempt :=
  if p.bypassed req then ⟨f, p.restored req, []⟩
  else if (p.classified v f req).2.2 || p.revalidates (p.stripped req) then
    ⟨(p.classified v f req).1, p.stripped req, (p.decided req).cacheKey⟩
  else ⟨(p.classified v f req).1, p.restored req, (p.decided req).cacheKey⟩

/-- The key a write drops: that of the GET, read without a blank Cookie line. -/
def forgottenKey : Key :=
  let get := { p.normalised req with method := lit "GET" }
  let k := (p.evalRequest (get.withCookie (get.header.get (lit "Cookie")))).cacheKey
  if k = [] then (p.decided req).cacheKey else k

/-- The status a write with this reply is answered with: its own, or that of the stored object or
the error page that takes its place. -/
def answeredStatus (r : HTTPReply) : Nat :=
  let a := p.attempt v f req
  if r.Direct then r.status
  else ((v.maxStale a.fresh a.key).getD
    (if v.gone then .nothing else p.errorAnswer a.req (.reply r))).recorded

/-! ## Cookies put back -/

section Cookies

variable {p req}

variable (h : Header) (w c : Str)

theorem setCookieField_setCookieField :
    setCookieField (setCookieField h w) c = setCookieField h c := by
  simp only [setCookieField]
  split <;> split
  · exact FinMap.erase_erase_self _ _
  · exact FinMap.erase_insert _ _ _
  · exact FinMap.insert_erase _ _ _
  · exact AList.insert_insert _

theorem withCookie_stripped : (p.stripped req).withCookie c = (p.normalised req).withCookie c := by
  simp only [stripped, stripDerivedCookies]
  split
  · simp only [Request.withCookie, setCookieField_setCookieField]
  · rfl

theorem siblingGetKey_stripped :
    p.siblingGetKey (p.stripped req) (p.decided req).cacheKey
      ((p.normalised req).header.get (lit "Cookie")) = p.forgottenKey req := by
  rw [siblingGetKey, withCookie_stripped]
  rfl

theorem get_insert_cookie : Header.get (h.insert (lit "Cookie") [c]) (lit "Cookie") = c := by
  rfl

/-- The Cookie field is one line that was written last, or it has no value. -/
def CookieWritten : Prop :=
  (∃ (h₀ : Header) (c : Str), h = h₀.insert (lit "Cookie") [c]) ∨ h.get (lit "Cookie") = []

theorem cookieWritten_canonicalize : CookieWritten (canonicalizeRequestCookies h) := by
  rw [canonicalizeRequestCookies_eq]
  split
  case isTrue hnone =>
    right
    rw [Header.get, hnone]
    rfl
  case isFalse => exact .inl ⟨h, _, rfl⟩

theorem cookieWritten_setCookieField : CookieWritten (setCookieField h w) := by
  by_cases hw : w = []
  · refine .inr ?_
    rw [Header.get, values_setCookieField_cookie h w Header.canonicalKey_cookie, if_pos hw]
    rfl
  · refine .inl ⟨h, w, ?_⟩
    rw [setCookieField, if_neg hw, Header.set, Header.canonicalKey_cookie]

theorem cookieWritten_normalised (p : Pipeline) (req : Request) :
    CookieWritten (p.normalised req).header := by
  rw [normalised, filtered]
  split
  · exact cookieWritten_setCookieField _ _
  · exact cookieWritten_canonicalize _

theorem withCookie_normalised
    (hc : (p.normalised req).header.get (lit "Cookie") ≠ [] ∨
      (p.normalised req).header.lookup (lit "Cookie") = none) :
    (p.normalised req).withCookie ((p.normalised req).header.get (lit "Cookie")) =
      p.normalised req := by
  suffices h : setCookieField (p.normalised req).header
      ((p.normalised req).header.get (lit "Cookie")) = (p.normalised req).header by
    rw [Request.withCookie, h]
  rcases hc with hc | hc
  · obtain ⟨h₀, c, hh⟩ | hnil := cookieWritten_normalised p req
    · rw [hh, get_insert_cookie] at hc ⊢
      rw [setCookieField, if_neg hc, Header.set, Header.canonicalKey_cookie, AList.insert_insert]
    · exact absurd hnil hc
  · rw [Header.get, Header.values, Header.canonicalKey_cookie, hc]
    exact FinMap.erase_of_lookup_eq_none hc

end Cookies

/-! ## A fetch for a write -/

section Fetch

variable {p f} {x : Exchange} {sent : Request} {selKey : Option (List KeyToken)} {key : Key}
  {store : Bool} {r : HTTPReply}

theorem lookup_serveOrigin_write (hwrite : isSafeMethod sent.method = false)
    (hr : r ∈ (p.serveOrigin x f sent selKey key store).fetched) (hs : r.Success) (k : Key) :
    (p.serveOrigin x f sent selKey key store).fresh.entries.lookup k = none ↔
      f.entries.lookup k = none ∧ ¬(k = key ∧ r.Direct ∧ p.marks sent selKey key r = true) := by
  obtain ⟨replies, -, ⟨hd, heq⟩ | ⟨hd, heq⟩⟩ := serveOrigin_of_success hr hs
  · rw [heq, serveResponse]
    simp only [Bool.false_eq_true, if_false, storable, hwrite, Bool.and_false, Bool.false_and]
    cases p.marks sent selKey key r with
    | false => simp
    | true =>
      simp only [if_true, setHitForMiss, put]
      by_cases hk : k = key <;> simp [hk, hd]
  · rw [heq, handleOriginError_of_success hs]
    simp [hd]

theorem recorded_serveOrigin (hr : r ∈ (p.serveOrigin x f sent selKey key store).fetched)
    (hs : r.Success) :
    (p.serveOrigin x f sent selKey key store).answer.recorded =
      if r.Direct then r.status
      else ((x.maxStale f key).getD
        (if x.gone then .nothing else p.errorAnswer sent (.reply r))).recorded := by
  obtain ⟨replies, -, ⟨hd, heq⟩ | ⟨hd, heq⟩⟩ := serveOrigin_of_success hr hs
  · rw [heq, answer_serveResponse, if_pos hd]
    rfl
  · rw [heq, handleOriginError_of_success hs, if_neg hd]

end Fetch

/-! ## The handler on a write -/

section Write

variable {p v f req}

theorem lookup_invalidating (out : Outcome) (k k' : Key) :
    (out.invalidating k).fresh.entries.lookup k' = none ↔
      (k' = k ∧ k ≠ [] ∧ 200 ≤ out.answer.recorded ∧ out.answer.recorded < 400) ∨
        out.fresh.entries.lookup k' = none := by
  rw [Outcome.invalidating]
  split
  case isTrue h =>
    simp only [forget, delete, FinMap.lookup_erase_ite]
    by_cases hk : k' = k
    · simp [hk, h]
    · simp [hk]
  case isFalse h => simp [h]

theorem method_normalised : (p.normalised req).method = req.method := by
  rw [normalised, filtered]
  split <;> rfl

theorem method_stripped : (p.stripped req).method = req.method := by
  simp only [stripped, stripDerivedCookies]
  split <;> exact method_normalised

theorem method_restored : (p.restored req).method = req.method := method_stripped

theorem method_attempt : (p.attempt v f req).req.method = req.method := by
  rw [attempt]
  split
  · exact method_restored
  · split
    · exact method_stripped
    · exact method_restored

theorem serveMiss_write {sent : Request} (hwrite : isSafeMethod sent.method = false)
    (selKey : Option (List KeyToken)) (key : Key) :
    p.serveMiss v f sent selKey key = p.serveOrigin v.toExchange f sent selKey key true := by
  simp only [isSafeMethod, Bool.or_eq_false_iff, beq_eq_false_iff_ne] at hwrite
  rw [serveMiss, if_neg]
  rintro ⟨-, h | h⟩
  · exact hwrite.1.1 h
  · exact hwrite.1.2 h

theorem serveHTTP_decided {r : HTTPReply} (hr : r ∈ (p.serveHTTP v f req).fetched)
    (hwrite : isSafeMethod req.method = false) :
    p.serveHTTP v f req = p.serveDecided v f (p.stripped req) (p.decided req)
      ((p.normalised req).header.get (lit "Cookie"))
      ((canonicalizeRequestCookies req.header).get (lit "Cookie")) := by
  simp only [serveHTTP] at hr ⊢
  split at hr
  · simp at hr
  split at hr
  · simp at hr
  case isFalse hblock hlimit =>
    rw [if_neg hblock, if_neg hlimit]
    simp only [method_normalised, hwrite]
    rfl

theorem serveKeyed_write {sent : Request} (hwrite : isSafeMethod sent.method = false)
    (rd : RequestDecision) (origCookie orig : Str) :
    (((f.classify v.now rd.cacheKey).2.2 || p.revalidates sent) = true ∧ ∃ store,
      p.serveKeyed v f sent rd origCookie orig =
        p.serveOrigin v.toExchange (f.classify v.now rd.cacheKey).1 sent rd.selKey rd.cacheKey
          store) ∨
    (((f.classify v.now rd.cacheKey).2.2 || p.revalidates sent) = false ∧
      p.serveKeyed v f sent rd origCookie orig =
        p.serveUnsafe v (f.classify v.now rd.cacheKey).1 sent rd.selKey rd.cacheKey origCookie
          orig) := by
  simp only [serveKeyed]
  cases hfm : (f.classify v.now rd.cacheKey).2.2 with
  | true => exact .inl ⟨rfl, false, by simp⟩
  | false =>
    cases hrev : p.revalidates sent with
    | true => exact .inl ⟨rfl, true, by simp [serveMiss_write hwrite]⟩
    | false => exact .inr ⟨rfl, by simp [hwrite]⟩

theorem serveHTTP_write {r : HTTPReply} (hr : r ∈ (p.serveHTTP v f req).fetched)
    (hwrite : isSafeMethod req.method = false) :
    ∃ store out, out = p.serveOrigin v.toExchange (p.attempt v f req).fresh
        (p.attempt v f req).req (p.decided req).selKey (p.attempt v f req).key store ∧
      r ∈ out.fetched ∧
      ((¬p.ReachesWrite v f req ∧ p.serveHTTP v f req = out) ∨
        (p.ReachesWrite v f req ∧ p.serveHTTP v f req = out.invalidating (p.forgottenKey req))) := by
  have hstripped : isSafeMethod (p.stripped req).method = false := by rwa [method_stripped]
  have hrestored : isSafeMethod ((p.stripped req).withCookie
      ((canonicalizeRequestCookies req.header).get (lit "Cookie"))).method = false := hstripped
  have hdecided := serveHTTP_decided hr hwrite
  rw [hdecided] at hr ⊢
  obtain ⟨hb, heq⟩ | ⟨hb, heq⟩ := serveDecided_cases hr
  · have hattempt : p.attempt v f req = ⟨f, p.restored req, []⟩ := if_pos hb
    rw [heq] at hr ⊢
    refine ⟨false, _, by rw [hattempt]; rfl, hr, .inl ⟨fun h => ?_, rfl⟩⟩
    exact absurd (hb.symm.trans h.1) (by decide)
  rw [heq] at hr ⊢
  obtain ⟨hfm, store, hkeyed⟩ | ⟨hfm, hkeyed⟩ := serveKeyed_write hstripped (p.decided req)
    ((p.normalised req).header.get (lit "Cookie"))
    ((canonicalizeRequestCookies req.header).get (lit "Cookie"))
  · have hattempt : p.attempt v f req =
        ⟨(p.classified v f req).1, p.stripped req, (p.decided req).cacheKey⟩ := by
      rw [attempt, if_neg (by simpa [bypassed] using hb)]
      exact if_pos hfm
    rw [hkeyed] at hr ⊢
    refine ⟨store, _, by rw [hattempt]; rfl, hr, .inl ⟨fun h => ?_, rfl⟩⟩
    rw [ReachesWrite, classified] at h
    simp [h.2.1, h.2.2] at hfm
  · have hattempt : p.attempt v f req =
        ⟨(p.classified v f req).1, p.restored req, (p.decided req).cacheKey⟩ := by
      rw [attempt, if_neg (by simpa [bypassed] using hb)]
      exact if_neg (by simpa [classified] using hfm)
    rw [hkeyed, serveUnsafe, siblingGetKey_stripped, serveMiss_write hrestored] at hr ⊢
    rw [fetched_invalidating] at hr
    rw [Bool.or_eq_false_iff] at hfm
    exact ⟨true, _, by rw [hattempt]; rfl, hr, .inr ⟨⟨hb, hfm.1, hfm.2⟩, rfl⟩⟩

variable (p v f req) in
/-- The write is followed by the invalidation of the GET's key. -/
def Invalidates (r : HTTPReply) : Prop :=
  p.ReachesWrite v f req ∧ p.forgottenKey req = p.getKey req ∧
    200 ≤ p.answeredStatus v f req r ∧ p.answeredStatus v f req r < 400

variable (p v f req) in
/-- There is no entry to forget, and the write does not set one. -/
def NothingToForget (r : HTTPReply) : Prop :=
  (p.attempt v f req).fresh.entries.lookup (p.getKey req) = none ∧
    ¬(p.getKey req = (p.attempt v f req).key ∧ r.Direct ∧
      p.marks (p.attempt v f req).req (p.decided req).selKey (p.attempt v f req).key r = true)

end Write

/-- **When a write makes the stored answer to the GET go.** For every site, index and write whose
fetch receives a success: after the handler returns, the entry of the GET's key is gone exactly
when the write gets to its own branch, is answered with a success and the key it drops is that
key, or there was no such entry and the write sets none. -/
theorem serveHTTP_forgets_iff (r : HTTPReply) (hwrite : isSafeMethod req.method = false)
    (hr : r ∈ (p.serveHTTP v f req).fetched) (hs : r.Success) (hk : p.getKey req ≠ []) :
    (p.serveHTTP v f req).fresh.entries.lookup (p.getKey req) = none ↔
      p.Invalidates v f req r ∨ p.NothingToForget v f req r := by
  have hmethod : isSafeMethod (p.attempt v f req).req.method = false := by rwa [method_attempt]
  obtain ⟨store, out, rfl, hmem, ⟨hw, heq⟩ | ⟨hw, heq⟩⟩ := serveHTTP_write hr hwrite
  · rw [heq, lookup_serveOrigin_write hmethod hmem hs, Invalidates, NothingToForget]
    simp [hw]
  have hstatus : (p.serveOrigin v.toExchange (p.attempt v f req).fresh (p.attempt v f req).req
      (p.decided req).selKey (p.attempt v f req).key store).answer.recorded =
        p.answeredStatus v f req r := recorded_serveOrigin hmem hs
  rw [heq, lookup_invalidating, lookup_serveOrigin_write hmethod hmem hs, hstatus]
  refine or_congr ⟨fun h => ⟨hw, h.1.symm, h.2.2⟩, fun h => ⟨h.2.1.symm, ?_, h.2.2⟩⟩ Iff.rfl
  rw [h.2.1]
  exact hk

def visit (r : HTTPReply) : Visit where
  toExchange := repliedWith r
  throttled := false
  upgrades := false
  peerAnswers := false
  flight := .winner
  compile _ := none

def indexed (key : Key) : Freshness := new.store 0 key second 0 0

def insistentPost : Request :=
  { formPost with header := AList.singleton (lit "Cache-Control") [lit "no-cache"] }

theorem serveHTTP_keeps_stale_answer :
    ¬∀ (p : Pipeline) (v : Visit) (f : Freshness) (req : Request) (r : HTTPReply),
      isSafeMethod req.method = false → (p.decided req).pass = false →
      r ∈ (p.serveHTTP v f req).fetched → r.Success → p.getKey req ≠ [] →
        (p.serveHTTP v f req).fresh.entries.lookup (p.getKey req) = none := by
  intro h
  have hgone := h bare (visit ⟨200, ∅, []⟩) (indexed (bare.getKey insistentPost)) insistentPost
    ⟨200, ∅, []⟩ (by decide) (by decide) (List.mem_singleton.mpr rfl) (by decide) (by decide)
  have hkept : (bare.serveHTTP (visit ⟨200, ∅, []⟩) (indexed (bare.getKey insistentPost))
      insistentPost).fresh.entries.lookup (bare.getKey insistentPost) ≠ none := by decide
  exact hkept hgone

theorem serveHTTP_forgets_form :
    (bare.serveHTTP (visit ⟨200, ∅, []⟩) (indexed (bare.getKey formPost)) formPost).fresh.entries.lookup
      (bare.getKey formPost) = none :=
  (serveHTTP_forgets_iff bare (visit ⟨200, ∅, []⟩) (indexed (bare.getKey formPost)) formPost
    ⟨200, ∅, []⟩ (by decide) (List.mem_singleton.mpr rfl) (by decide) (by decide)).mpr
      (.inl ⟨by unfold ReachesWrite; decide, by decide, by decide, by decide⟩)

end Pipeline

end Cadish
