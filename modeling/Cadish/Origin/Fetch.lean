import Cadish.Pipeline.Request

/-!
# Origins

An origin is an HTTP server, a bucket, a pool, a read-through peer pool, or a chain. A pool retries
the failures that another backend may answer; a chain falls through on them and on misses. **201 and
204 are errors** to an HTTP origin. The first reply with a success status ends a fetch
(`fetch_sound`).
-/

namespace Cadish

open List

structure HTTPReply where
  status : Nat
  header : Header
  body : Str

inductive FetchError where
  | reply (r : HTTPReply)
  | status (code : Nat)
  | notFound
  | skip
  | transport
  | atCapacity
  | noBackend
  | context

def FetchError.statusOf : FetchError → Nat
  | reply r => r.status
  | status code => code
  | notFound => 404
  | _ => 0

inductive FetchOutcome where
  | response (r : HTTPReply) (negative : Bool)
  | error (e : FetchError)

inductive BucketAnswer where
  | object (header : Header) (body : Str)
  | missing
  | failed (code : Nat)

mutual

/-- An origin, with the answers its servers would give to the request at hand. -/
inductive Origin where
  | http (answer : Option HTTPReply)
  | s3 (answer : BucketAnswer)
  | peer (declines : Bool) (pool : Origin)
  | pool (backends : Attempts)
  | chain (members : Attempts)

/-- What is tried in turn: whether the context is done by then, whether the backend has a free
connection, and the origin. -/
inductive Attempts where
  | nil (contextDone : Bool)
  | cons (contextDone hasCapacity : Bool) (o : Origin) (rest : Attempts)

end

/-! ## Fetching -/

def fetchHTTP (r : HTTPReply) : FetchOutcome :=
  if r.status = 200 ∨ r.status = 206 then .response r false
  else if 300 ≤ r.status ∧ r.status ≤ 399 then .response r false
  else if r.status = 404 ∨ r.status = 410 then .response r true
  else .error (.reply r)

/-- `s3origin.Origin.Fetch`, from the answer on: an error with status 0 is one of transport. -/
def fetchS3 : BucketAnswer → List HTTPReply × FetchOutcome
  | .object header body =>
    let r := ⟨if header.get (lit "Content-Range") = [] then 200 else 206, header, body⟩
    ([r], .response r false)
  | .missing => ([], .error .notFound)
  | .failed code => ([], .error (if 0 < code then .status code else .transport))

/-- `retriable`: another backend of the pool is tried. -/
def FetchError.retriable (e : FetchError) : Bool :=
  match e with
  | atCapacity => true
  | _ => e.statusOf == 0 || (500 ≤ e.statusOf && e.statusOf ≤ 599)

/-- `DefaultFallThrough`: the next origin of the chain is tried. -/
def FetchError.fallsThrough (e : FetchError) : Bool :=
  e.statusOf == 0 || e.statusOf == 404 || (500 ≤ e.statusOf && e.statusOf ≤ 599)

mutual

/-- `Fetch`: the replies that were received, and the outcome. `hasBody` says that the request
carries a body, which can be sent once only. -/
def Origin.fetch (hasBody : Bool) : Origin → List HTTPReply × FetchOutcome
  | .http (some r) => ([r], fetchHTTP r)
  | .http none => ([], .error .transport)
  | .s3 answer => fetchS3 answer
  | .peer declines pool =>
    if declines then ([], .error .skip)
    else
      let got := pool.fetch hasBody
      match got.2 with
      | .response _ true => (got.1, .error .notFound)
      | out => (got.1, out)
  | .pool backends => backends.fetchPool hasBody none
  | .chain members => members.fetchChain hasBody none none

def Attempts.fetchPool (hasBody : Bool) (lastErr : Option FetchError) :
    Attempts → List HTTPReply × FetchOutcome
  | .nil contextDone =>
    ([], .error (lastErr.getD (if contextDone then .context else .noBackend)))
  | .cons contextDone hasCapacity o rest =>
    if contextDone then ([], .error (lastErr.getD .context))
    else
      let got := if hasCapacity then o.fetch hasBody else ([], .error .atCapacity)
      match got.2 with
      | .response r negative => (got.1, .response r negative)
      | .error e =>
        if !e.retriable || hasBody then (got.1, .error e)
        else
          let next := rest.fetchPool hasBody (some e)
          (got.1 ++ next.1, next.2)

/-- `chain.Chain.Fetch`. A negative response is held as the answer of last resort. -/
def Attempts.fetchChain (hasBody : Bool) (lastNeg : Option HTTPReply)
    (lastErr : Option FetchError) : Attempts → List HTTPReply × FetchOutcome
  | .nil _ =>
    ([], match lastNeg, lastErr with
      | some r, _ => .response r true
      | none, some e => .error e
      | none, none => .error .notFound)
  | .cons contextDone _ o rest =>
    if contextDone then ([], .error .context)
    else
      let got := o.fetch hasBody
      match got.2 with
      | .response r false => (got.1, .response r false)
      | .response r true =>
        if hasBody then (got.1, .response r true)
        else
          let next := rest.fetchChain hasBody (some r) none
          (got.1 ++ next.1, next.2)
      | .error .skip =>
        let next := rest.fetchChain hasBody lastNeg none
        (got.1 ++ next.1, next.2)
      | .error e =>
        if hasBody || !e.fallsThrough then (got.1, .error e)
        else
          let next := rest.fetchChain hasBody lastNeg (some e)
          (got.1 ++ next.1, next.2)

end

/-! ## A success ends a fetch -/

def HTTPReply.Success (r : HTTPReply) : Prop := 200 ≤ r.status ∧ r.status < 400

/-- The statuses an HTTP origin takes for an answer. -/
def HTTPReply.Direct (r : HTTPReply) : Prop :=
  r.status = 200 ∨ r.status = 206 ∨ (300 ≤ r.status ∧ r.status ≤ 399)

instance (r : HTTPReply) : Decidable r.Success := inferInstanceAs (Decidable (_ ∧ _))

instance (r : HTTPReply) : Decidable r.Direct := inferInstanceAs (Decidable (_ ∨ _ ∨ _))

def FetchOutcome.Carries (out : FetchOutcome) (r : HTTPReply) : Prop :=
  (r.Direct ∧ out = .response r false) ∨ (¬r.Direct ∧ out = .error (.reply r))

/-- Either no server has answered with a success, or the last one has, and the outcome carries
its reply. -/
def Settled (got : List HTTPReply × FetchOutcome) : Prop :=
  (∀ r ∈ got.1, ¬r.Success) ∨
    ∃ before r, got.1 = before ++ [r] ∧ (∀ r' ∈ before, ¬r'.Success) ∧ r.Success ∧
      got.2.Carries r

theorem Settled.none_of {got : List HTTPReply × FetchOutcome} (h : Settled got)
    (hout : ∀ r, r.Success → ¬got.2.Carries r) : ∀ r ∈ got.1, ¬r.Success := by
  obtain h | ⟨before, r, -, -, hr, hc⟩ := h
  · exact h
  · exact absurd hc (hout r hr)

theorem Settled.prepend {t : List HTTPReply} {next : List HTTPReply × FetchOutcome}
    (ht : ∀ r ∈ t, ¬r.Success) (h : Settled next) : Settled (t ++ next.1, next.2) := by
  obtain h | ⟨before, r, heq, hb, hr, hc⟩ := h
  · exact .inl fun r hr => (mem_append.mp hr).elim (ht r) (h r)
  · refine .inr ⟨t ++ before, r, by simp [heq], fun r' hr' => ?_, hr, hc⟩
    exact (mem_append.mp hr').elim (ht r') (hb r')

theorem FetchError.final_of_success {e : FetchError} {r : HTTPReply} (hr : r.Success)
    (hc : (FetchOutcome.error e).Carries r) : e.retriable = false ∧ e.fallsThrough = false := by
  obtain ⟨-, h⟩ | ⟨-, h⟩ := hc
  · cases h
  obtain rfl : e = .reply r := by simpa using h
  have h1 := hr.1
  have h2 := hr.2
  have hlow : ¬500 ≤ r.status := by omega
  have h0 : r.status ≠ 0 := by omega
  have h404 : r.status ≠ 404 := by omega
  simp [retriable, fallsThrough, statusOf, hlow, h0, h404]

theorem fetchHTTP_settled (r : HTTPReply) : Settled ([r], fetchHTTP r) := by
  by_cases hr : r.Success
  · refine .inr ⟨[], r, rfl, nofun, hr, ?_⟩
    have h2 := hr.2
    simp only [FetchOutcome.Carries, HTTPReply.Direct, fetchHTTP]
    split
    case isTrue h => exact .inl ⟨by omega, rfl⟩
    case isFalse h =>
      split
      case isTrue h' => exact .inl ⟨by omega, rfl⟩
      case isFalse h' =>
        rw [if_neg (by omega)]
        exact .inr ⟨by omega, rfl⟩
  · exact .inl fun r' hr' => by
      obtain rfl := mem_singleton.mp hr'
      exact hr

theorem fetchS3_settled (answer : BucketAnswer) : Settled (fetchS3 answer) := by
  cases answer with
  | object header body =>
    refine .inr ⟨[], _, rfl, nofun, ?_, .inl ⟨?_, rfl⟩⟩
    all_goals simp only [HTTPReply.Success, HTTPReply.Direct]; split <;> omega
  | missing | failed code => exact .inl nofun

theorem not_carries_negative {r r' : HTTPReply} : ¬(FetchOutcome.response r true).Carries r' := by
  rintro (⟨-, h⟩ | ⟨-, h⟩) <;> cases h

/-! ## Negative responses -/

def FetchOutcome.NegativeOk (out : FetchOutcome) : Prop :=
  ∀ r, out = .response r true → r.status = 404 ∨ r.status = 410

theorem FetchOutcome.NegativeOk.error (e : FetchError) : (FetchOutcome.error e).NegativeOk := by
  intro r h
  cases h

theorem FetchOutcome.NegativeOk.positive (r : HTTPReply) : (FetchOutcome.response r false).NegativeOk := by
  intro r h
  cases h

theorem fetchHTTP_negativeOk (r : HTTPReply) : (fetchHTTP r).NegativeOk := by
  rw [fetchHTTP]
  split
  · exact .positive r
  split
  · exact .positive r
  split
  case isTrue hstatus =>
    rintro r' ⟨⟩
    exact hstatus
  case isFalse => exact .error _

/-! ## What holds of a fetch -/

structure Sound (got : List HTTPReply × FetchOutcome) : Prop where
  settled : Settled got
  negativeOk : got.2.NegativeOk

namespace Sound

variable {got next : List HTTPReply × FetchOutcome} {out : FetchOutcome}

theorem error (e : FetchError) : Sound ([], .error e) := ⟨.inl nofun, .error e⟩

theorem same (h : Sound got) (hout : got.2 = out) : Sound (got.1, out) := by
  rw [← hout]
  exact h

theorem prepend (h : Sound got) (hout : ∀ r, r.Success → ¬got.2.Carries r) (hnext : Sound next) :
    Sound (got.1 ++ next.1, next.2) :=
  ⟨.prepend (h.settled.none_of hout) hnext.settled, hnext.negativeOk⟩

end Sound

mutual

/-- **A success ends a fetch**: whatever the origin is made of, the first reply with a success
status is the last that is asked for, and the outcome carries it. -/
theorem Origin.fetch_sound (hasBody : Bool) : ∀ o : Origin, Sound (o.fetch hasBody)
  | .http (some r) => by
    rw [Origin.fetch]
    exact ⟨fetchHTTP_settled r, fetchHTTP_negativeOk r⟩
  | .http none => .error _
  | .s3 answer => by
    rw [Origin.fetch]
    refine ⟨fetchS3_settled answer, ?_⟩
    cases answer with
    | object header body => exact .positive _
    | missing | failed code => exact .error _
  | .peer declines pool => by
    have ih := pool.fetch_sound hasBody
    rw [Origin.fetch]
    split
    · exact .error _
    dsimp only
    split
    case h_1 hneg =>
      -- the peers' negative is dropped, and it was no success
      refine ⟨.inl (ih.settled.none_of fun r _ => ?_), .error _⟩
      rw [hneg]
      exact not_carries_negative
    case h_2 => exact ih
  | .pool backends => by
    rw [Origin.fetch]
    exact backends.fetchPool_sound hasBody none
  | .chain members => by
    rw [Origin.fetch]
    exact members.fetchChain_sound hasBody none none fun _ hr => absurd hr (Option.not_mem_none _)

theorem Attempts.fetchPool_sound (hasBody : Bool) :
    ∀ (lastErr : Option FetchError) (l : Attempts), Sound (l.fetchPool hasBody lastErr)
  | lastErr, .nil _ => by
    rw [Attempts.fetchPool]
    exact .error _
  | lastErr, .cons contextDone hasCapacity o rest => by
    have ih := o.fetch_sound hasBody
    rw [Attempts.fetchPool]
    split
    · exact .error _
    have hgot : Sound (if hasCapacity then o.fetch hasBody else ([], .error .atCapacity)) := by
      split
      · exact ih
      · exact .error _
    dsimp only
    generalize (if hasCapacity then o.fetch hasBody else ([], .error .atCapacity)) = got at hgot
    split
    case h_1 r negative hout => exact hgot.same hout
    case h_2 e hout =>
      split
      · exact hgot.same hout
      case isFalse hretry =>
        refine hgot.prepend (fun r hr hc => hretry ?_) (rest.fetchPool_sound hasBody (some e))
        rw [hout] at hc
        simp [(FetchError.final_of_success hr hc).1]

theorem Attempts.fetchChain_sound (hasBody : Bool) :
    ∀ (lastNeg : Option HTTPReply) (lastErr : Option FetchError) (l : Attempts),
      (∀ r ∈ lastNeg, r.status = 404 ∨ r.status = 410) → Sound (l.fetchChain hasBody lastNeg lastErr)
  | lastNeg, lastErr, .nil _, hneg => by
    rw [Attempts.fetchChain.eq_def]
    refine ⟨.inl nofun, ?_⟩
    dsimp only
    split
    · rintro r ⟨⟩
      exact hneg _ rfl
    · exact .error _
    · exact .error _
  | lastNeg, lastErr, .cons contextDone _ o rest, hneg => by
    have ih := o.fetch_sound hasBody
    rw [Attempts.fetchChain.eq_def]
    dsimp only
    split
    · exact .error _
    generalize o.fetch hasBody = got at ih
    split
    case h_1 r hout => exact ih.same hout
    case h_2 r hout =>
      split
      · exact ih.same hout
      refine ih.prepend (fun r' _ => ?_) (rest.fetchChain_sound hasBody (some r) none fun r' hr' => ?_)
      · rw [hout]
        exact not_carries_negative
      · obtain rfl := Option.some.inj hr'
        exact ih.negativeOk r hout
    case h_3 hout =>
      refine ih.prepend (fun r hr hc => ?_) (rest.fetchChain_sound hasBody lastNeg none hneg)
      rw [hout] at hc
      exact absurd (FetchError.final_of_success hr hc).2 (by decide)
    case h_4 e _ hout =>
      split
      · exact ih.same hout
      case isFalse hfall =>
        refine ih.prepend (fun r hr hc => hfall ?_) (rest.fetchChain_sound hasBody lastNeg (some e) hneg)
        rw [hout] at hc
        simp [(FetchError.final_of_success hr hc).2]

end

theorem Origin.fetch_carries {hasBody : Bool} {o : Origin} {r : HTTPReply}
    (hr : r ∈ (o.fetch hasBody).1) (hs : r.Success) :
    (o.fetch hasBody).1.getLast? = some r ∧ (o.fetch hasBody).2.Carries r := by
  obtain h | ⟨before, r', heq, hb, -, hc⟩ := (o.fetch_sound hasBody).settled
  · exact absurd hs (h r hr)
  rw [heq] at hr ⊢
  rcases mem_append.mp hr with hr | hr
  · exact absurd hs (hb r hr)
  · obtain rfl := mem_singleton.mp hr
    exact ⟨by simp, hc⟩

end Cadish
