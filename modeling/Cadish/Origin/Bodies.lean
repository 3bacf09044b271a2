import Mathlib.Data.List.Nodup

/-!
# Bodies, and who closes them

A fetch is described by what it leaves behind (`Got`), and pools and chains by how they put the
fetches of their members together. A chain closes the bodies it gives up; **a pool does not**
(`closed_once_iff`). A member of a chain that skips is as good as none, **unless the chain ends with
it**: the error held until then is forgotten (`answer_skips_iff`).
-/

namespace Cadish.Bodies

open List Option

/-- What a fetch answers. A body is known by its number. -/
inductive Answer where
  | response (negative : Bool) (body : Nat)
  | status (code : Nat) (body : Option Nat)
  | notFound
  | skip
  | transport
  | atCapacity
  | noBackend
  | context
  deriving DecidableEq

namespace Answer

def body : Answer → Option Nat
  | response _ b => some b
  | status _ b => b
  | _ => none

def errorBody : Answer → Option Nat
  | status _ b => b
  | _ => none

def isError : Answer → Bool
  | response _ _ => false
  | _ => true

def statusOf : Answer → Nat
  | status code _ => code
  | notFound => 404
  | _ => 0

def retriable (a : Answer) : Bool := a.statusOf = 0 || (500 ≤ a.statusOf && a.statusOf ≤ 599)

end Answer

structure Got where
  opened : List Nat := []
  closed : List Nat := []
  /-- of the errors that a pool held when it went on to another backend -/
  superseded : List Nat := []
  /-- the leaf origins that may have read the body of the request -/
  sent : Nat := 0
  answer : Answer

namespace Got

def leaf (a : Answer) : Got :=
  { opened := a.body.toList, sent := if a = .skip then 0 else 1, answer := a }

def close (g : Got) (bodies : List Nat) : Got := { g with closed := g.closed ++ bodies }

/-- These are closed, and another fetch follows. -/
def next (g : Got) (bodies : List Nat) (g' : Got) : Got :=
  ⟨g.opened ++ g'.opened, g.closed ++ bodies ++ g'.closed, g.superseded ++ g'.superseded,
    g.sent + g'.sent, g'.answer⟩

end Got

def held (a : Option Answer) : List Nat := (a.bind Answer.body).toList

/-- `Upstream.Fetch`, with the error it holds: the backends it picks, each with whether the context
is done before it and whether the backend has a free slot. -/
def poolFetch (hasBody : Bool) (done : Bool) : Option Answer → List (Bool × Bool × Got) → Got
  | lastErr, [] => { answer := lastErr.getD (if done then .context else .noBackend) }
  | lastErr, (done', hasCapacity, g) :: rest =>
    if done' then { answer := lastErr.getD .context }
    else
      let g := if hasCapacity then g else { answer := .atCapacity }
      let g := { g with superseded := g.superseded ++ held lastErr }
      if !g.answer.isError || !g.answer.retriable || hasBody then g
      else g.next [] (poolFetch hasBody done (some g.answer) rest)

/-- `Chain.Fetch`, with the negative response and the error it holds: its members, each with whether
the context is done before it. -/
def chainFetch (fallThrough : Answer → Bool) (hasBody : Bool) :
    Option Answer → Option Answer → List (Bool × Got) → Got
  | some neg, lastErr, [] => { closed := held lastErr, answer := neg }
  | none, lastErr, [] => { answer := lastErr.getD .notFound }
  | lastNeg, lastErr, (done, g) :: rest =>
    if done then { closed := held lastNeg ++ held lastErr, answer := .context }
    else match g.answer with
      | .response false _ => g.close (held lastNeg ++ held lastErr)
      | .response true _ =>
        if hasBody then g.close (held lastNeg)
        else g.next (held lastNeg ++ held lastErr)
          (chainFetch fallThrough hasBody (some g.answer) none rest)
      | .skip => g.next (held lastErr) (chainFetch fallThrough hasBody lastNeg none rest)
      | e =>
        if hasBody || !fallThrough e then g.close (held lastErr ++ held lastNeg)
        else g.next (held lastErr) (chainFetch fallThrough hasBody lastNeg (some e) rest)

/-- **Every nesting** of chains, pools and leaf origins. -/
inductive Fetched (hasBody : Bool) : Got → Prop where
  | leaf (a : Answer) : Fetched hasBody (.leaf a)
  | pool {l : List (Bool × Bool × Got)} (done : Bool) :
    (∀ x ∈ l, Fetched hasBody x.2.2) → Fetched hasBody (poolFetch hasBody done none l)
  | chain {l : List (Bool × Got)} (fallThrough : Answer → Bool) :
    (∀ x ∈ l, Fetched hasBody x.2) →
      Fetched hasBody (chainFetch fallThrough hasBody none none l)

/-! ## What becomes of the bodies -/

namespace Got

/-- What was held before or is opened is closed, lost or handed on. -/
def Balanced (g : Got) (before : List Nat) : Prop :=
  ∀ b, (before ++ g.opened).count b =
    (g.closed ++ g.superseded ++ g.answer.body.toList).count b

theorem Balanced.close {g : Got} {before bodies : List Nat} (hg : g.Balanced [])
    (h : ∀ b, before.count b = bodies.count b) : (g.close bodies).Balanced before := by
  intro b
  have hb := hg b
  have hc := h b
  simp only [Got.close, count_append, count_nil] at hb ⊢
  omega

theorem Balanced.next {g g' : Got} {before bodies after : List Nat} (hg : g.Balanced [])
    (hg' : g'.Balanced after)
    (h : ∀ b, (before ++ g.answer.body.toList).count b = (bodies ++ after).count b) :
    (g.next bodies g').Balanced before := by
  intro b
  have hb := hg b
  have hb' := hg' b
  have hc := h b
  simp only [Got.next, count_append, count_nil] at hb hb' hc ⊢
  omega

end Got

theorem poolFetch_balanced {hasBody done : Bool} {l : List (Bool × Bool × Got)}
    (hl : ∀ x ∈ l, x.2.2.Balanced []) (lastErr : Option Answer) :
    (poolFetch hasBody done lastErr l).Balanced (held lastErr) := by
  have hend : ∀ (e : Option Answer) (d : Answer), d.body = none →
      Got.Balanced { answer := e.getD d } (held e) := by
    intro e d hd b
    cases e <;> simp [held, hd]
  induction l generalizing lastErr with
  | nil =>
    exact hend _ _ (by split <;> rfl)
  | cons x rest ih =>
    obtain ⟨done', hasCapacity, g⟩ := x
    obtain ⟨hx, hrest⟩ := forall_mem_cons.mp hl
    rw [poolFetch]
    split
    · exact hend _ _ rfl
    have hg : (if hasCapacity then g else { answer := .atCapacity } : Got).Balanced [] := by
      split
      · exact hx
      · exact fun b => rfl
    generalize (if hasCapacity then g else { answer := .atCapacity } : Got) = g at hg
    dsimp only
    split
    · intro b
      have hb := hg b
      simp only [count_append, count_nil] at hb ⊢
      omega
    · intro b
      have hb := hg b
      have hnext := ih hrest (some g.answer) b
      simp only [Got.next, held, bind_some, count_append, count_nil] at hb hnext ⊢
      omega

theorem chainFetch_balanced {fallThrough : Answer → Bool} {hasBody : Bool}
    {l : List (Bool × Got)} (hl : ∀ x ∈ l, x.2.Balanced []) (lastNeg lastErr : Option Answer)
    (herr : hasBody = true → lastErr = none) :
    (chainFetch fallThrough hasBody lastNeg lastErr l).Balanced (held lastNeg ++ held lastErr) := by
  induction l generalizing lastNeg lastErr with
  | nil =>
    intro b
    cases lastNeg <;> cases lastErr <;>
      simp [chainFetch, held, Answer.body, Nat.add_comm]
  | cons x rest ih =>
    obtain ⟨hx, hrest⟩ := forall_mem_cons.mp hl
    rw [chainFetch]
    split
    · intro b
      simp [Answer.body]
    split
    · exact hx.close fun b => rfl
    case h_2 b' hans =>
      split
      case isTrue hbody =>
        rw [herr hbody]
        exact hx.close fun b => by simp [held]
      · refine hx.next (ih hrest _ _ fun _ => rfl) fun b => ?_
        simp [held]
    case h_3 hans =>
      refine hx.next (ih hrest _ _ fun _ => rfl) fun b => ?_
      simp [held, hans, Answer.body, Nat.add_comm]
    case h_4 hans =>
      split
      · exact hx.close fun b => by simp [Nat.add_comm]
      case isFalse hgo =>
        refine hx.next (ih hrest _ _ fun hbody => by simp [hbody] at hgo) fun b => ?_
        simp only [held, bind_some, count_append]
        omega

theorem Fetched.balanced {hasBody : Bool} {g : Got} (h : Fetched hasBody g) : g.Balanced [] := by
  induction h with
  | leaf a => exact fun b => by simp [Got.leaf]
  | pool done _ ih => exact poolFetch_balanced ih none
  | chain fallThrough _ ih => exact chainFetch_balanced ih none none fun _ => rfl

/-- `handleOriginError`: a body that is streamed is closed behind it and taken out of the error;
what is then left in the error is closed on the way out. -/
def handleOriginError (streams : Bool) (body : Option Nat) : List Nat :=
  let (streamed, left) := if streams then (body, none) else (none, body)
  streamed.toList ++ left.toList

inductive Caller where
  | serveOrigin (streams : Bool)
  | revalidate

def Caller.closes : Caller → Answer → List Nat
  | _, .response _ b => [b]
  | serveOrigin streams, a => handleOriginError streams a.errorBody
  | revalidate, _ => []

theorem Caller.closes_eq {caller : Caller} {a : Answer}
    (h : caller = .revalidate → a.errorBody = none) : caller.closes a = a.body.toList := by
  cases caller with
  | serveOrigin streams =>
    cases a <;> cases streams <;> simp [closes, handleOriginError, Answer.errorBody, Answer.body]
  | revalidate =>
    cases a with
    | status code b =>
      obtain rfl : b = none := h rfl
      rfl
    | _ => rfl

def Skips (x : Bool × Got) : Prop := x.1 = false ∧ x.2.answer = .skip

def Falls (fallThrough : Answer → Bool) (hasBody : Bool) (x : Bool × Got) : Prop :=
  x.1 = false ∧ x.2.answer.isError = true ∧ x.2.answer ≠ .skip ∧ hasBody = false ∧
    fallThrough x.2.answer = true

instance (x : Bool × Got) : Decidable (Skips x) := inferInstanceAs (Decidable (_ ∧ _))

/-- Some member fails with an error other than `ErrNotFound`, those behind it skip, and those before
it have skipped or failed. -/
def Forgets (fallThrough : Answer → Bool) (hasBody : Bool) : List (Bool × Got) → Prop
  | [] => False
  | x :: rest =>
    (Falls fallThrough hasBody x ∧ x.2.answer ≠ .notFound ∧ rest ≠ [] ∧ ∀ y ∈ rest, Skips y) ∨
      (Skips x ∨ Falls fallThrough hasBody x) ∧ Forgets fallThrough hasBody rest

section Skips

variable {fallThrough : Answer → Bool} {hasBody : Bool} {l : List (Bool × Got)}

theorem answer_error {g : Got} (herr : g.answer.isError = true) (hskip : g.answer ≠ .skip)
    (lastNeg lastErr : Option Answer) :
    (chainFetch fallThrough hasBody lastNeg lastErr ((false, g) :: l)).answer =
      if hasBody || !fallThrough g.answer then g.answer
      else (chainFetch fallThrough hasBody lastNeg (some g.answer) l).answer := by
  rw [chainFetch]
  cases hans : g.answer <;> simp_all [Answer.isError] <;> split <;> simp_all [Got.close, Got.next]

theorem answer_skips (lastNeg lastErr lastErr' : Option Answer) :
    (chainFetch fallThrough hasBody lastNeg lastErr l).answer =
        (chainFetch fallThrough hasBody lastNeg lastErr' (l.filter (¬Skips ·))).answer ↔
      lastNeg.isSome ∨
        ¬(((∀ x ∈ l, Skips x) ∧
          (if l = [] then lastErr else none).getD .notFound ≠ lastErr'.getD .notFound) ∨
          Forgets fallThrough hasBody l) := by
  induction l generalizing lastNeg lastErr lastErr' with
  | nil => cases lastNeg <;> simp [chainFetch, Forgets]
  | cons x rest ih =>
    obtain ⟨done, g⟩ := x
    by_cases hskip : Skips (done, g)
    · obtain ⟨rfl, hans⟩ := id hskip
      have hfalls : ¬Falls fallThrough hasBody (false, g) := fun h => h.2.2.1 hans
      have hstep : (chainFetch fallThrough hasBody lastNeg lastErr ((false, g) :: rest)).answer =
          (chainFetch fallThrough hasBody lastNeg none rest).answer := by
        simp only [] at hans
        simp [chainFetch, hans, Got.next]
      rw [filter_cons_of_neg (by simpa using hskip), hstep, ih]
      simp [Forgets, hfalls, hskip]
    rw [filter_cons_of_pos (by simpa using hskip)]
    by_cases hfalls : Falls fallThrough hasBody (done, g)
    · obtain ⟨rfl, herr, hne, hbody, hfall⟩ := id hfalls
      have hgo : ¬(hasBody || !fallThrough g.answer) = true := by simp [hbody, hfall]
      rw [answer_error herr hne, answer_error herr hne, if_neg hgo, if_neg hgo, ih]
      have hall : ¬∀ x ∈ (false, g) :: rest, Skips x := fun h => hskip (h _ mem_cons_self)
      simp only [Forgets, hall, hskip, hfalls, false_and, false_or, true_and]
      refine or_congr_right (not_congr (or_congr_left ?_))
      by_cases hrest : rest = []
      · simp [hrest]
      · simp only [hrest, if_false, getD_none, getD_some, ne_eq, not_false_eq_true, true_and]
        rw [and_comm, eq_comm]
    -- the chain ends here, or holds a negative response from here on
    refine iff_of_true ?_ (.inr (by simp [Forgets, hskip, hfalls]))
    cases done with
    | true => simp [chainFetch]
    | false =>
      cases hans : g.answer with
      | response negative b =>
        have hheld := (ih (some g.answer) none none).mpr (.inl rfl)
        cases negative with
        | false => simp [chainFetch, hans, Got.close]
        | true =>
          cases hasBody with
          | true => simp [chainFetch, hans]
          | false => simpa [chainFetch, hans, Got.next] using hheld
      | skip => exact absurd ⟨rfl, hans⟩ hskip
      | _ =>
        have herr : g.answer.isError = true := by rw [hans]; rfl
        have hne : g.answer ≠ .skip := by rw [hans]; nofun
        have hstop : (hasBody || !fallThrough g.answer) = true := by
          by_contra hgo
          simp only [Bool.or_eq_true, Bool.not_eq_true', not_or, Bool.not_eq_true,
            Bool.not_eq_false] at hgo
          exact hfalls ⟨rfl, herr, hne, hgo⟩
        rw [answer_error herr hne, answer_error herr hne, if_pos hstop, if_pos hstop]

/-- Until an origin has read the body of a request, all have skipped. -/
def Got.SentOnce (g : Got) : Prop := g.sent ≤ 1 ∧ (g.answer = .skip → g.sent = 0)

theorem poolFetch_sentOnce {done : Bool} {l : List (Bool × Bool × Got)}
    (hl : ∀ x ∈ l, x.2.2.SentOnce) : (poolFetch true done none l).SentOnce := by
  cases l with
  | nil => simp [poolFetch, Got.SentOnce]
  | cons x rest =>
    obtain ⟨done', hasCapacity, g⟩ := x
    cases done' <;> cases hasCapacity <;> simp_all [poolFetch, Got.SentOnce]

theorem chainFetch_sentOnce (hl : ∀ x ∈ l, x.2.SentOnce) :
    (chainFetch fallThrough true none none l).SentOnce := by
  induction l with
  | nil => simp [chainFetch, Got.SentOnce]
  | cons x rest ih =>
    obtain ⟨done, g⟩ := x
    obtain ⟨⟨hle, hskip⟩, hrest⟩ := forall_mem_cons.mp hl
    cases done with
    | true => simp [chainFetch, Got.SentOnce]
    | false =>
      cases hans : g.answer with
      | skip =>
        have hsent : g.sent = 0 := hskip hans
        simpa [chainFetch, hans, Got.SentOnce, Got.next, hsent] using ih hrest
      | response negative b =>
        cases negative <;> simp [chainFetch, hans, Got.SentOnce, Got.close, hle]
      | _ => simp [chainFetch, hans, Got.SentOnce, Got.close, hle]

theorem Fetched.sentOnce {g : Got} (h : Fetched true g) : g.SentOnce := by
  induction h with
  | leaf a =>
    refine ⟨?_, fun h => if_pos h⟩
    simp only [Got.leaf]
    split <;> decide
  | pool done _ ih => exact poolFetch_sentOnce ih
  | chain fallThrough _ ih => exact chainFetch_sentOnce ih

end Skips

end Cadish.Bodies
