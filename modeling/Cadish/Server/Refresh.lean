import Cadish.Server.Serve
import Cadish.Server.Tee

/-!
# What a fetch stores

A reply is stored by the request that has fetched it, or by the background refresh of a stale
object. Both are taken to the object that is committed and what is recorded in the index. They
differ: the refresh keeps no error page, places a negative entry by the storage rules, and leaves no
hit-for-miss marker for an error, among others (`revalidate_stores_iff`).
-/

namespace Cadish

open Stream Option Fetch

inductive FreshMark where
  | stored (ttl grace maxStale : Duration)
  | hitForMiss (d : Duration)
deriving DecidableEq

def FreshMark.record (now : Instant) (key : Key) (f : Freshness) : FreshMark → Freshness
  | stored ttl grace maxStale => f.store now key ttl grace maxStale
  | hitForMiss d => f.setHitForMiss now key d

/-- What a fetch does to the store and to the freshness index. -/
structure Effect where
  object : Option Object := none
  mark : Option FreshMark := none
deriving DecidableEq

namespace Effect

def storing (o : Option Object) (mark : FreshMark) : Effect :=
  match o with
  | none => {}
  | some o => { object := some o, mark := some mark }

def index (now : Instant) (key : Key) (f : Freshness) (e : Effect) : Freshness :=
  (e.mark.map (FreshMark.record now key f)).getD f

end Effect

def Served.object (s : Served) (m : ObjectMeta) : Option Object :=
  if s.committed then some (m.with (written (s.calls.getD []))) else none

def WriterPlan.bodyless (w : WriterPlan) (m : ObjectMeta) : Option Object :=
  if w.opens && w.commits then some (m.with []) else none

namespace Fetch

variable (f : Fetch)

def arrives : Bool := !f.body.fails && f.declared.all fun n => f.body.content.length == n

def buffered : Bool :=
  f.buffers && !f.body.fails && decide (f.body.content.length ≤ maxTransformBody)

variable {f}

theorem serveBody_commits (hw : ∀ i, f.writer.accepts i = true) (hhead : f.head = false)
    (hclient : f.client = none) :
    f.serveBody.committed = (f.opensWriter && f.writer.commits && (f.arrives || f.buffered)) ∧
      (f.serveBody.committed = true → written (f.serveBody.calls.getD []) = f.body.content) := by
  obtain ⟨src, hserve, hcontent, hfails, hbuf⟩ | ⟨hbuf, hread, hserve⟩ | ⟨hbuf, hread, hlen, hserve⟩ :=
    f.serveBody_cases
  · obtain ⟨hcommit, hwritten⟩ := serveStream_commits hw hhead hclient src
    rw [hcontent] at hcommit hwritten
    refine ⟨?_, by rw [hserve]; exact hwritten⟩
    have hbuffered : f.buffered = false := by
      rw [buffered]
      by_cases h : f.buffers = true
      · rw [decide_eq_false (hbuf h).2, Bool.and_false]
      · rw [Bool.eq_false_iff.mpr h]
        rfl
    rw [hserve, hcommit, hfails, hbuffered, arrives]
    cases f.opensWriter <;> cases f.body.fails <;> cases f.writer.commits <;> simp
  · -- the reader has failed, and goes on failing
    have hfails : f.body.fails = true := (Reader.readLoop_failed hread).1
    obtain ⟨hcommit, -⟩ := serveStream_commits hw hhead hclient f.readCapped.2.2
    have hnot : f.serveBody.committed = false := by
      rw [hserve, hcommit, show f.readCapped.2.2.fails = true from hfails]
      simp
    refine ⟨?_, fun h => absurd (hnot.symm.trans h) Bool.false_ne_true⟩
    rw [hnot, arrives, buffered, hfails]
    simp
  · have hfails : f.body.fails = false := by
      rw [← hread]
      exact (Reader.readLoop_all (Nat.lt_succ_of_le hlen)).symm
    have hbuffered : f.buffered = true := by
      rw [buffered, hbuf, hfails, decide_eq_true hlen]
      rfl
    rw [hserve, serveBuffer, hw 0, hbuffered, Bool.or_true, Bool.and_true]
    cases hopens : f.opensWriter with
    | true =>
      refine ⟨rfl, fun _ => ?_⟩
      simp [written, WriterCall.bytes]
    | false => exact ⟨rfl, fun h => absurd h Bool.false_ne_true⟩

end Fetch

/-! ## The two paths -/

def responseMeta (key : Key) (declared : Option Nat) (h : Header) (sd : ResponseDecision) :
    ObjectMeta where
  key := key
  size := declared.elim (-1) Int.ofNat
  contentType := h.get (lit "Content-Type")
  etag := h.get (lit "ETag")
  lastModified := h.get (lit "Last-Modified")
  contentEncoding := h.get (lit "Content-Encoding")
  vary := h.get (lit "Vary")
  tier := sd.storeTier

def FetchError.hasStatus (e : FetchError) : Bool :=
  e.isNotFound || (decide (400 ≤ e.statusOf) && decide (e.statusOf < 600))

namespace Pipeline

variable (p : Pipeline) (x : Exchange) (f : Freshness) (req : Request)
  (selKey : Option (List KeyToken)) (key : Key) (b : Fetch)

variable {m : FreshMark} {o : Option Object} {sd : ResponseDecision}

def handleOriginErrorEffect (e : FetchError) : Effect :=
  if (x.maxStale f key).isSome then {}
  else
    let sd := p.errorDecision req selKey e
    if key != [] && sd.cacheable && isSafeMethod req.method then
      -- `storeAndServeNegative`
      .storing (b.writer.bodyless { key, status := e.code }) (.stored sd.ttl sd.grace 0)
    else if e.isNotFound then {}
    else if x.gone then {}
    else if 0 < sd.hitForMiss ∧ key ≠ [] then { mark := some (.hitForMiss sd.hitForMiss) }
    else {}

def servedBody (r : HTTPReply) : Fetch :=
  { b with
    ranged := b.ranged || r.status == 206
    head := req.method == lit "HEAD"
    store := true }

def serveOriginEffect : FetchOutcome → Effect
  | .error e => p.handleOriginErrorEffect x f req selKey key b e
  | .response r negative =>
    if negative && (x.maxStale f key).isSome then {}
    else
      let sd := p.evalResponse req selKey r.status (some r.header)
      if p.marks req selKey key r then { mark := some (.hitForMiss sd.hitForMiss) }
      else if p.storable req selKey key true r negative then
        .storing ((servedBody req b r).serveBody.object
          { responseMeta key b.declared r.header sd with
            status := if negative then r.status else 0
            forcedPrivate := sd.forcedPrivate })
          (.stored sd.ttl sd.grace sd.maxStale)
      else {}

def revalidateEffect : FetchOutcome → Effect
  | .error e =>
    let sd := if e.hasStatus then p.evalResponse req selKey e.code none else {}
    if sd.cacheable then
      .storing (b.writer.bodyless { key, status := e.code, tier := sd.storeTier })
        (.stored sd.ttl sd.grace 0)
    else {}
  | .response r _ =>
    let sd := p.evalResponse req selKey r.status (some r.header)
    if !sd.cacheable || r.status != 200 then
      if 0 < sd.hitForMiss then { mark := some (.hitForMiss sd.hitForMiss) } else {}
    else
      .storing (b.revalidateBody.object (responseMeta key b.declared r.header sd))
        (.stored sd.ttl sd.grace sd.maxStale)

/-! ## The freshness index -/

/-- The request's commit succeeds, when it comes to that. -/
def commits : FetchOutcome → Bool
  | .error _ => b.writer.opens && b.writer.commits
  | .response r _ => (servedBody req b r).serveBody.committed

def revalidateCommits : FetchOutcome → Bool
  | .error _ => b.writer.opens && b.writer.commits
  | .response _ _ => b.revalidateBody.committed

variable {p x f req selKey key b}

theorem index_storing (o : Option Object) (ttl grace maxStale : Duration) (now : Instant) :
    (Effect.storing o (.stored ttl grace maxStale)).index now key f =
      if o.isSome then f.store now key ttl grace maxStale else f := by
  cases o <;> rfl

theorem isSome_object (s : Served) (m : ObjectMeta) : (s.object m).isSome = s.committed := by
  rw [Served.object]
  cases s.committed <;> rfl

theorem isSome_bodyless (w : WriterPlan) (m : ObjectMeta) :
    (w.bodyless m).isSome = (w.opens && w.commits) := by
  rw [WriterPlan.bodyless]
  cases w.opens && w.commits <;> rfl

theorem handleOriginErrorEffect_index (e : FetchError)
    (hc : x.commits = (b.writer.opens && b.writer.commits)) (replies : List HTTPReply) :
    (p.handleOriginErrorEffect x f req selKey key b e).index x.now key f =
      (p.handleOriginError x f req selKey key true replies e).fresh := by
  rw [handleOriginErrorEffect, handleOriginError]
  cases x.maxStale f key with
  | some a => rfl
  | none =>
    simp only [isSome_none, Bool.false_eq_true, if_false, Bool.true_and]
    split
    · rw [index_storing, isSome_bodyless, hc]
    split
    · rfl
    · split
      · rfl
      · split <;> rfl

theorem serveResponse_index (r : HTTPReply) (negative : Bool)
    (hc : x.commits = (servedBody req b r).serveBody.committed) (replies : List HTTPReply) :
    (p.serveOriginEffect x f req selKey key b (.response r negative)).index x.now key f =
      (p.serveResponse x f req selKey key true replies r negative).fresh := by
  have hhead : req.method = lit "HEAD" → x.commits = false := by
    intro hhead
    rw [hc]
    simp [servedBody, hhead, serveBody, buffers, serveStream]
  rw [serveOriginEffect, serveResponse]
  cases hstale : (if negative = true then x.maxStale f key else none) with
  | some a =>
    have hsome : (negative && (x.maxStale f key).isSome) = true := by
      cases negative with
      | true => rw [show x.maxStale f key = some a from hstale]; rfl
      | false => cases hstale
    rw [if_pos hsome]
    rfl
  | none =>
    have hnone : ¬(negative && (x.maxStale f key).isSome) = true := by
      cases negative with
      | true => rw [show x.maxStale f key = none from hstale]; exact Bool.false_ne_true
      | false => exact Bool.false_ne_true
    rw [if_neg hnone]
    dsimp only
    cases hmarks : p.marks req selKey key r with
    | true =>
      -- a marker is recorded, and nothing stored
      have hstore : p.storable req selKey key true r negative = false := by
        simp only [storable, hmarks, Bool.not_true, Bool.and_false, Bool.false_and]
      rw [hstore]
      rfl
    | false =>
      rw [if_neg Bool.false_ne_true, if_neg Bool.false_ne_true]
      cases hstore : p.storable req selKey key true r negative with
      | false => rfl
      | true =>
        rw [if_pos rfl, index_storing, isSome_object, ← hc]
        by_cases hmethod : req.method = lit "HEAD"
        · rw [hhead hmethod, Bool.and_false]
          rfl
        · rw [bne_iff_ne.mpr hmethod]
          cases x.commits <;> rfl

theorem serveOriginEffect_index {o : Origin} (ho : x.origin = some o)
    (hc : x.commits = commits req b (o.fetch (forwardsBody x req)).2) :
    (p.serveOriginEffect x f req selKey key b (o.fetch (forwardsBody x req)).2).index x.now key f =
      (p.serveOrigin x f req selKey key true).fresh := by
  simp only [serveOrigin, ho]
  cases hout : (o.fetch (forwardsBody x req)).2 with
  | error e =>
    rw [hout] at hc
    exact handleOriginErrorEffect_index e hc _
  | response r negative =>
    rw [hout] at hc
    exact serveResponse_index r negative hc _

theorem revalidateEffect_index {o : Origin} (ho : x.origin = some o)
    (hc : x.commits = revalidateCommits b (o.fetch false).2) :
    (p.revalidateEffect req selKey key b (o.fetch false).2).index x.now key f =
      p.revalidate x f req selKey key := by
  simp only [revalidate, ho]
  cases hout : (o.fetch false).2 with
  | error e =>
    rw [hout] at hc
    have hstatus : (e.isNotFound = true ∨ 400 ≤ e.statusOf ∧ e.statusOf < 600) ↔ e.hasStatus = true := by
      simp [FetchError.hasStatus]
    simp only [revalidateEffect, hstatus]
    generalize (if e.hasStatus = true then p.evalResponse req selKey e.code none else {}) = sd
    cases sd.cacheable with
    | true =>
      rw [if_pos rfl, index_storing, isSome_bodyless, hc]
      rfl
    | false => rfl
  | response r negative =>
    rw [hout] at hc
    rw [revalidateEffect]
    dsimp only
    split
    · split <;> rfl
    · rw [index_storing, isSome_object, hc]
      rfl

/-! ## When they store the same -/

variable (x f req key sd) in
/-- The request makes a failed fetch a negative entry. -/
def KeepsError : Prop :=
  x.maxStale f key = none ∧ key ≠ [] ∧ sd.cacheable = true ∧ isSafeMethod req.method = true

def MarksError (x : Exchange) (f : Freshness) (key : Key) (e : FetchError) (sd : ResponseDecision) :
    Prop :=
  x.maxStale f key = none ∧ key ≠ [] ∧ 0 < sd.hitForMiss ∧ e.isNotFound = false ∧ x.gone = false

variable (p x f req selKey key b) in
/-- The condition under which both paths store the same of a reply. -/
def StoredAlike : FetchOutcome → Prop
  | .response r false =>
    let sd := p.evalResponse req selKey r.status (some r.header)
    -- a marker has a key
    (0 < sd.hitForMiss → key ≠ []) ∧
    (sd.cacheable = true → r.status = 200 → b.writer.opens = true → b.writer.commits = true →
      -- an object that arrives in full is one that the request stores too, and not against the
      -- origin's word
      (b.arrives = true → key ≠ [] ∧ isSafeMethod req.method = true ∧ req.method ≠ lit "HEAD" ∧
        sd.forcedPrivate = false) ∧
      -- one that does not is not buffered by the request
      (b.arrives = false → key ≠ [] → isSafeMethod req.method = true →
        (servedBody req b r).buffered = false))
  | .response r true =>
    let sd := p.evalResponse req selKey r.status (some r.header)
    (0 < sd.hitForMiss → key ≠ [] ∧ x.maxStale f key = none) ∧
    -- an error page is not one that the request stores
    (sd.cacheable = true → b.writer.opens = true → b.writer.commits = true → x.maxStale f key = none →
      key ≠ [] → isSafeMethod req.method = true → req.method ≠ lit "HEAD" →
        b.arrives = false ∧ (servedBody req b r).buffered = false)
  | .error e =>
    let sd := p.errorDecision req selKey e
    let sd' := if e.hasStatus then p.evalResponse req selKey e.code none else {}
    -- the status is cacheable with the header of the error and without, for the same windows, and
    -- no storage rule places it
    (b.writer.opens = true → b.writer.commits = true →
      (sd'.cacheable = true ↔ KeepsError x f req key sd) ∧
      (sd'.cacheable = true → sd'.storeTier = none ∧ sd'.ttl = sd.ttl ∧ sd'.grace = sd.grace)) ∧
    -- and the request leaves no marker
    ¬MarksError x f key e sd

theorem storing_eq_empty : Effect.storing o m = {} ↔ o = none := by
  cases o with
  | none => exact iff_of_true rfl rfl
  | some o => exact iff_of_false nofun nofun

theorem storing_ne_marker {ttl grace maxStale d : Duration} :
    Effect.storing o (.stored ttl grace maxStale) ≠ { mark := some (.hitForMiss d) } := by
  cases o with
  | none | some o => nofun

theorem storing_eq_storing {o' : Option Object} {m' : FreshMark} :
    Effect.storing o m = .storing o' m' ↔ o = o' ∧ (o.isSome = true → m = m') := by
  cases o <;> cases o' <;> simp [Effect.storing]

theorem bodyless_eq_none {w : WriterPlan} {m : ObjectMeta} :
    w.bodyless m = none ↔ ¬(w.opens = true ∧ w.commits = true) := by
  rw [← not_isSome_iff_eq_none, isSome_bodyless, Bool.and_eq_true]

variable (p x f req selKey key b) in
theorem handleOriginErrorEffect_cases (e : FetchError) (hsd : p.errorDecision req selKey e = sd) :
    (KeepsError x f req key sd ∧ p.handleOriginErrorEffect x f req selKey key b e =
      .storing (b.writer.bodyless { key, status := e.code }) (.stored sd.ttl sd.grace 0)) ∨
    (¬KeepsError x f req key sd ∧ MarksError x f key e sd ∧
      p.handleOriginErrorEffect x f req selKey key b e = { mark := some (.hitForMiss sd.hitForMiss) }) ∨
    (¬KeepsError x f req key sd ∧ ¬MarksError x f key e sd ∧
      p.handleOriginErrorEffect x f req selKey key b e = {}) := by
  rw [handleOriginErrorEffect, hsd, KeepsError, MarksError]
  cases hstale : x.maxStale f key with
  | some a => exact .inr (.inr ⟨nofun, nofun, rfl⟩)
  | none =>
    simp only [isSome_none, Bool.false_eq_true, if_false, Bool.and_eq_true, bne_iff_ne,
      true_and, and_assoc]
    split
    case isTrue hstore => exact .inl ⟨hstore.1, hstore.2.1, hstore.2.2, rfl⟩
    case isFalse hstore =>
      refine .inr ?_
      cases hmissing : e.isNotFound with
      | true => exact .inr ⟨hstore, nofun, rfl⟩
      | false =>
        cases hgone : x.gone with
        | true => exact .inr ⟨hstore, nofun, rfl⟩
        | false =>
          simp only [Bool.false_eq_true, if_false]
          split
          case isTrue hmarks => exact .inl ⟨hstore, hmarks.2, hmarks.1, trivial, trivial, rfl⟩
          case isFalse hmarks => exact .inr ⟨hstore, fun h => hmarks ⟨h.2.1, h.1⟩, rfl⟩

theorem errorDecision_hitForMiss {e : FetchError} (hsd : p.errorDecision req selKey e = sd)
    (hc : sd.cacheable = true) : sd.hitForMiss = 0 := by
  subst hsd
  rw [errorDecision] at hc ⊢
  split at hc
  case isTrue hstatus =>
    rw [if_pos hstatus]
    exact evalResponse_hitForMiss hc
  case isFalse hstatus => cases hc

theorem storing_bodyless_eq {code : Nat} {tier : Option Tier} {m' : FreshMark} :
    Effect.storing (b.writer.bodyless { key, status := code, tier }) m =
        .storing (b.writer.bodyless { key, status := code }) m' ↔
      (b.writer.opens = true → b.writer.commits = true → tier = none ∧ m = m') := by
  rw [storing_eq_storing, WriterPlan.bodyless, WriterPlan.bodyless]
  cases b.writer.opens <;> cases b.writer.commits <;> simp [ObjectMeta.with]

theorem revalidate_error_iff (e : FetchError) :
    p.revalidateEffect req selKey key b (.error e) = p.serveOriginEffect x f req selKey key b (.error e) ↔
      p.StoredAlike x f req selKey key b (.error e) := by
  obtain ⟨sd, hsd⟩ : ∃ sd, p.errorDecision req selKey e = sd := ⟨_, rfl⟩
  have hcases := handleOriginErrorEffect_cases p x f req selKey key b e hsd
  rw [revalidateEffect, serveOriginEffect, StoredAlike, hsd]
  generalize p.handleOriginErrorEffect x f req selKey key b e = effect at hcases ⊢
  generalize (if e.hasStatus = true then p.evalResponse req selKey e.code none else {}) = sd'
  obtain ⟨hkeeps, rfl⟩ | ⟨hkeeps, hmarks, rfl⟩ | ⟨hkeeps, hmarks, rfl⟩ := hcases
  · have hunmarked : ¬MarksError x f key e sd := by
      rintro ⟨-, -, hpos, -⟩
      rw [errorDecision_hitForMiss hsd hkeeps.2.2.1] at hpos
      exact absurd hpos (by decide)
    rw [and_iff_left hunmarked, iff_true_right hkeeps]
    cases hc : sd'.cacheable with
    | true =>
      rw [if_pos rfl, storing_bodyless_eq]
      simp
    | false =>
      rw [if_neg Bool.false_ne_true, eq_comm, storing_eq_empty, bodyless_eq_none]
      simp
  · refine iff_of_false (fun h => ?_) fun h => h.2 hmarks
    split at h
    · exact storing_ne_marker h
    · cases h
  · rw [and_iff_left hmarks, iff_false_right hkeeps]
    cases hc : sd'.cacheable with
    | true =>
      rw [if_pos rfl, storing_eq_empty, bodyless_eq_none]
      simp
    | false => simp

theorem not_hitForMiss {r : HTTPReply} (hsd : p.evalResponse req selKey r.status (some r.header) = sd)
    (hc : sd.cacheable = true) : ¬0 < sd.hitForMiss := by
  subst hsd
  rw [evalResponse_hitForMiss hc]
  decide

theorem revalidateBody_object (hw : ∀ i, b.writer.accepts i = true) (m : ObjectMeta) :
    b.revalidateBody.object m =
      if b.writer.opens && b.writer.commits && b.arrives then some (m.with b.body.content) else none := by
  obtain ⟨hcommit, hwritten⟩ := serveStream_commits
    (f := { b with transforms := [], head := false, store := true, client := none }) hw rfl rfl b.body
  have hsame : b.revalidateBody.committed = (b.writer.opens && b.writer.commits && b.arrives) := by
    refine hcommit.trans ?_
    rw [arrives, opensWriter]
    cases b.writer.opens <;> cases b.writer.commits <;> simp
  rw [Served.object, ← hsame]
  split
  case isTrue hdone => rw [show written (b.revalidateBody.calls.getD []) = _ from hwritten hdone]
  case isFalse => rfl

theorem serveBody_object (hw : ∀ i, b.writer.accepts i = true) (hclient : b.client = none)
    (r : HTTPReply) (m : ObjectMeta) :
    (servedBody req b r).serveBody.object m =
      if req.method != lit "HEAD" && b.writer.opens && b.writer.commits &&
          (b.arrives || (servedBody req b r).buffered) then
        some (m.with b.body.content)
      else none := by
  by_cases hhead : req.method = lit "HEAD"
  · have hnot : (servedBody req b r).serveBody.committed = false := by
      simp [servedBody, hhead, serveBody, buffers, serveStream]
    rw [Served.object, hnot, hhead]
    rfl
  obtain ⟨hcommit, hwritten⟩ := serveBody_commits (f := servedBody req b r) hw
    (by simpa [servedBody] using hhead) hclient
  have hsame : (servedBody req b r).serveBody.committed = (req.method != lit "HEAD" &&
      b.writer.opens && b.writer.commits && (b.arrives || (servedBody req b r).buffered)) := by
    rw [bne_iff_ne.mpr hhead]
    exact hcommit
  rw [Served.object, ← hsame]
  split
  case isTrue hdone => rw [show written ((servedBody req b r).serveBody.calls.getD []) = _ from
      hwritten hdone]; rfl
  case isFalse => rfl

variable (p x f req selKey key b) in
theorem serveOriginEffect_cases (r : HTTPReply) (negative : Bool)
    (hsd : p.evalResponse req selKey r.status (some r.header) = sd)
    (hstale : negative = true → x.maxStale f key = none) :
    ((0 < sd.hitForMiss ∧ key ≠ []) ∧ p.serveOriginEffect x f req selKey key b (.response r negative) =
      { mark := some (.hitForMiss sd.hitForMiss) }) ∨
    (¬(0 < sd.hitForMiss ∧ key ≠ []) ∧
      ((key ≠ [] ∧ sd.cacheable = true ∧ (r.status = 200 ∨ negative = true) ∧
          isSafeMethod req.method = true) ∧
        p.serveOriginEffect x f req selKey key b (.response r negative) =
          .storing ((servedBody req b r).serveBody.object
            { responseMeta key b.declared r.header sd with
              status := if negative then r.status else 0
              forcedPrivate := sd.forcedPrivate })
            (.stored sd.ttl sd.grace sd.maxStale) ∨
      ¬(key ≠ [] ∧ sd.cacheable = true ∧ (r.status = 200 ∨ negative = true) ∧
          isSafeMethod req.method = true) ∧
        p.serveOriginEffect x f req selKey key b (.response r negative) = {})) := by
  have hnone : ¬(negative && (x.maxStale f key).isSome) = true := by
    intro h
    rw [Bool.and_eq_true] at h
    rw [hstale h.1] at h
    exact absurd h.2 Bool.false_ne_true
  have hmarks : p.marks req selKey key r = true ↔ 0 < sd.hitForMiss ∧ key ≠ [] := by
    rw [marks, hsd, Bool.and_eq_true, decide_eq_true_eq, bne_iff_ne]
  have hstorable : p.marks req selKey key r = false →
      (p.storable req selKey key true r negative = true ↔ key ≠ [] ∧ sd.cacheable = true ∧
        (r.status = 200 ∨ negative = true) ∧ isSafeMethod req.method = true) := by
    intro hm
    simp only [storable, hm, hsd, Bool.not_false, Bool.true_and, Bool.and_eq_true, bne_iff_ne,
      Bool.or_eq_true, beq_iff_eq, and_assoc]
  rw [serveOriginEffect, if_neg hnone, hsd]
  cases hm : p.marks req selKey key r with
  | true => exact .inl ⟨hmarks.mp hm, rfl⟩
  | false =>
    refine .inr ⟨fun h => absurd (hmarks.mpr h) (by rw [hm]; exact Bool.false_ne_true), ?_⟩
    rw [if_neg Bool.false_ne_true]
    by_cases hstore : p.storable req selKey key true r negative = true
    · rw [if_pos hstore]
      exact .inl ⟨(hstorable hm).mp hstore, rfl⟩
    · rw [if_neg hstore]
      exact .inr ⟨mt (hstorable hm).mpr hstore, rfl⟩

section

variable (hw : ∀ i, b.writer.accepts i = true) (hclient : b.client = none)

include hw hclient

theorem revalidate_negative_iff {r : HTTPReply} (hstatus : r.status ≠ 200) :
    p.revalidateEffect req selKey key b (.response r true) =
        p.serveOriginEffect x f req selKey key b (.response r true) ↔
      p.StoredAlike x f req selKey key b (.response r true) := by
  obtain ⟨sd, hsd⟩ : ∃ sd, p.evalResponse req selKey r.status (some r.header) = sd := ⟨_, rfl⟩
  have hrefresh : p.revalidateEffect req selKey key b (.response r true) =
      if 0 < sd.hitForMiss then { mark := some (.hitForMiss sd.hitForMiss) } else {} := by
    rw [revalidateEffect, hsd, bne_iff_ne.mpr hstatus, Bool.or_true, if_pos rfl]
  rw [hrefresh, StoredAlike, hsd]
  cases hstale : x.maxStale f key with
  | some a =>
    have hnothing : p.serveOriginEffect x f req selKey key b (.response r true) = {} := by
      rw [serveOriginEffect, hstale]
      rfl
    rw [hnothing]
    split
    case isTrue hpos => exact iff_of_false nofun fun h => nomatch (h.1 hpos).2
    case isFalse hpos => exact iff_of_true rfl ⟨fun h => absurd h hpos, fun _ _ _ h => nomatch h⟩
  | none =>
    obtain ⟨⟨hpos, hkey⟩, heffect⟩ | ⟨hunmarked, ⟨⟨hkey, hc, -, hsafe⟩, heffect⟩ | ⟨hunstored, heffect⟩⟩ :=
      serveOriginEffect_cases p x f req selKey key b r true hsd fun _ => hstale
    · rw [heffect, if_pos hpos]
      exact iff_of_true rfl ⟨fun _ => ⟨hkey, rfl⟩, fun hc => absurd hpos (not_hitForMiss hsd hc)⟩
    · have hpos : ¬0 < sd.hitForMiss := fun hpos => hunmarked ⟨hpos, hkey⟩
      rw [heffect, if_neg hpos, eq_comm, storing_eq_empty, serveBody_object hw hclient]
      rw [ite_eq_right_iff]
      simp only [Bool.and_eq_true, bne_iff_ne]
      constructor
      · refine fun hlost => ⟨fun h => absurd h hpos, fun _ hopens hcommits _ _ _ hhead => ?_⟩
        rw [← Bool.or_eq_false_iff, ← Bool.not_eq_true]
        exact fun hbody => nomatch hlost ⟨⟨⟨hhead, hopens⟩, hcommits⟩, hbody⟩
      · rintro ⟨-, hlost⟩ ⟨⟨⟨hhead, hopens⟩, hcommits⟩, hbody⟩
        obtain ⟨harrives, hbuffered⟩ := hlost hc hopens hcommits trivial hkey hsafe hhead
        rw [harrives, hbuffered] at hbody
        cases hbody
    · rw [heffect]
      by_cases hpos : 0 < sd.hitForMiss
      · rw [if_pos hpos]
        have hkey : key = [] := by
          by_contra hkey
          exact hunmarked ⟨hpos, hkey⟩
        exact iff_of_false nofun fun h => (h.1 hpos).1 hkey
      · rw [if_neg hpos]
        refine iff_of_true rfl ⟨fun h => absurd h hpos, fun hc _ _ _ hkey hsafe => ?_⟩
        exact absurd ⟨hkey, hc, .inr rfl, hsafe⟩ hunstored

theorem object_eq_iff (r : HTTPReply) (m : ObjectMeta) (hm : m.forcedPrivate = false)
    (forcedPrivate : Bool) (mark : FreshMark) :
    Effect.storing (b.revalidateBody.object m) mark =
        .storing ((servedBody req b r).serveBody.object { m with forcedPrivate }) mark ↔
      (b.writer.opens = true → b.writer.commits = true →
        (b.arrives = true → req.method ≠ lit "HEAD" ∧ forcedPrivate = false) ∧
        (b.arrives = false → (servedBody req b r).buffered = false)) := by
  rw [storing_eq_storing, revalidateBody_object hw, serveBody_object hw hclient]
  have hhead : req.method = lit "HEAD" → (servedBody req b r).buffered = false := by
    intro hhead
    simp [servedBody, hhead, buffered, buffers]
  cases b.writer.opens with
  | false => simp
  | true =>
    cases b.writer.commits with
    | false => simp
    | true =>
      cases b.arrives with
      | true =>
        have hfull : some (m.with b.body.content) =
            some (ObjectMeta.with { m with forcedPrivate } b.body.content) ↔ forcedPrivate = false := by
          rw [← hm, some_inj]
          simp only [ObjectMeta.with, Prod.mk.injEq, ObjectMeta.mk.injEq, true_and, and_true]
          exact eq_comm
        by_cases hmethod : req.method = lit "HEAD"
        · rw [hmethod]
          simp
        · simp [hfull]
      | false =>
        by_cases hmethod : req.method = lit "HEAD"
        · simp [hhead hmethod]
        · cases (servedBody req b r).buffered <;> simp [hmethod]

theorem revalidate_positive_iff (r : HTTPReply) :
    p.revalidateEffect req selKey key b (.response r false) =
        p.serveOriginEffect x f req selKey key b (.response r false) ↔
      p.StoredAlike x f req selKey key b (.response r false) := by
  obtain ⟨sd, hsd⟩ : ∃ sd, p.evalResponse req selKey r.status (some r.header) = sd := ⟨_, rfl⟩
  rw [StoredAlike, revalidateEffect, hsd]
  have hcases := serveOriginEffect_cases p x f req selKey key b r false hsd fun h => nomatch h
  by_cases hstores : sd.cacheable = true ∧ r.status = 200
  · obtain ⟨hc, hstatus⟩ := hstores
    rw [hc, hstatus]
    simp only [Bool.not_true, bne_self_eq_false, Bool.or_self, Bool.false_eq_true, if_false,
      true_implies]
    obtain ⟨⟨hpos, -⟩, -⟩ | ⟨-, ⟨⟨hkey, -, -, hsafe⟩, heffect⟩ | ⟨hunstored, heffect⟩⟩ := hcases
    · exact absurd hpos (not_hitForMiss hsd hc)
    · rw [heffect, and_iff_right fun h => absurd h (not_hitForMiss hsd hc)]
      refine (object_eq_iff hw hclient r (responseMeta key b.declared r.header sd) rfl sd.forcedPrivate
        (.stored sd.ttl sd.grace sd.maxStale)).trans ?_
      simp only [hkey, hsafe, ne_eq, not_false_eq_true, true_and, true_implies]
    have hrefused : ¬(key ≠ [] ∧ isSafeMethod req.method = true) :=
      fun h => hunstored ⟨h.1, hc, .inl hstatus, h.2⟩
    rw [heffect, storing_eq_empty, revalidateBody_object hw, ite_eq_right_iff,
      and_iff_right fun h => absurd h (not_hitForMiss hsd hc)]
    simp only [Bool.and_eq_true]
    constructor
    · refine fun hlost hopens hcommits => ⟨fun harrives => ?_, fun _ hkey hsafe => ?_⟩
      · exact nomatch hlost ⟨⟨hopens, hcommits⟩, harrives⟩
      · exact absurd ⟨hkey, hsafe⟩ hrefused
    · rintro hsame ⟨⟨hopens, hcommits⟩, harrives⟩
      obtain ⟨hkey, hsafe, -⟩ := (hsame hopens hcommits).1 harrives
      exact absurd ⟨hkey, hsafe⟩ hrefused
  · -- nothing is stored, and both leave the same marker
    have hrefresh : (!sd.cacheable || r.status != 200) = true := by
      rw [Bool.or_eq_true, bne_iff_ne, Bool.not_eq_true']
      by_contra h
      rw [not_or, Bool.not_eq_false, not_not] at h
      exact hstores h
    rw [if_pos hrefresh, and_iff_left fun hc hstatus => absurd ⟨hc, hstatus⟩ hstores]
    obtain ⟨⟨hpos, hkey⟩, heffect⟩ | ⟨hunmarked, ⟨⟨hkey, hc, hstatus, -⟩, -⟩ | ⟨-, heffect⟩⟩ := hcases
    · rw [heffect, if_pos hpos]
      exact iff_of_true rfl fun _ => hkey
    · exact absurd ⟨hc, hstatus.resolve_right Bool.false_ne_true⟩ hstores
    · rw [heffect]
      split
      case isTrue hpos => exact iff_of_false nofun fun h => hunmarked ⟨hpos, h hpos⟩
      case isFalse hpos => exact iff_of_true rfl fun h => absurd h hpos

end

variable (p x f req selKey key b) in
/-- **When a refresh stores what a request would.** For every site, freshness index, request, key and
origin, whatever the origin replies, and a client that takes what it is sent: the effect of the
refresh is that of the request exactly under the condition. -/
theorem revalidate_stores_iff (hw : ∀ i, b.writer.accepts i = true) (hclient : b.client = none)
    (o : Origin) (hasBody : Bool) :
    p.revalidateEffect req selKey key b (o.fetch hasBody).2 =
        p.serveOriginEffect x f req selKey key b (o.fetch hasBody).2 ↔
      p.StoredAlike x f req selKey key b (o.fetch hasBody).2 := by
  have hneg := (o.fetch_sound hasBody).negativeOk
  generalize (o.fetch hasBody).2 = out at hneg ⊢
  cases out with
  | error e => exact revalidate_error_iff e
  | response r negative =>
    cases negative with
    | false => exact revalidate_positive_iff hw hclient r
    | true =>
      refine revalidate_negative_iff hw hclient fun hstatus => ?_
      have hnotFound := hneg r rfl
      omega

def oneByte : Fetch :=
  { declared := some 1, body := ⟨[lit "x"], false, false⟩, transforms := [], ranged := false
    head := false, encoded := false, store := true, writer := ⟨true, fun _ => true, true⟩
    client := none }

theorem fetch_ok (h : Header) (body : Str) :
    (Origin.fetch false (.http (some ⟨200, h, body⟩))).2 = .response ⟨200, h, body⟩ false := by
  simp [Origin.fetch, fetchHTTP]

theorem revalidate_stores_minute :
    revalidateEffect { bare with ttlRules := [minuteRule 0 0] } (.get (lit "/") ∅) none (lit "/") oneByte
        (Origin.fetch false (.http (some ⟨200, ∅, lit "x"⟩))).2 =
      serveOriginEffect { bare with ttlRules := [minuteRule 0 0] } (repliedWith ⟨200, ∅, lit "x"⟩) .new
        (.get (lit "/") ∅) none (lit "/") oneByte
        (Origin.fetch false (.http (some ⟨200, ∅, lit "x"⟩))).2 := by
  refine (revalidate_stores_iff _ _ _ _ _ _ oneByte (fun _ => rfl) rfl _ false).mpr ?_
  refine ⟨fun _ => by decide, fun _ _ _ _ => ⟨fun _ => by decide, fun harrives => ?_⟩⟩
  exact absurd harrives (by decide)

/-- **A refresh forgets that an object is private.** On a site that stores against the origin's word,
the object of the request is marked, and that of the refresh is not. -/
theorem revalidate_forgets_private :
    ¬ ∀ (p : Pipeline) (x : Exchange) (f : Freshness) (req : Request) (selKey : Option (List KeyToken))
      (key : Key) (b : Fetch), (∀ i, b.writer.accepts i = true) → b.client = none →
      ∀ (o : Origin) (hasBody : Bool), p.revalidateEffect req selKey key b (o.fetch hasBody).2 =
        p.serveOriginEffect x f req selKey key b (o.fetch hasBody).2 := by
  intro h
  have hsame := h { bare with ttlRules := [minuteRule 0 0], cacheUnsafe := true }
    (repliedWith ⟨200, Header.set ∅ (lit "Cache-Control") (lit "private"), lit "x"⟩) .new
    (.get (lit "/") ∅) none (lit "/") oneByte (fun _ => rfl) rfl
    (.http (some ⟨200, Header.set ∅ (lit "Cache-Control") (lit "private"), lit "x"⟩)) false
  exact absurd hsame (by decide)

end Pipeline

end Cadish
