import Cadish.Lib.Credit
import Cadish.Lib.FinMap
import Cadish.Lib.Run
import Cadish.Text
import Cadish.Time
import Mathlib.Data.Fintype.Pigeonhole
import Mathlib.Data.Rat.Floor
import Mathlib.Data.Set.Finite.List

/-!
# The rate limiter

A limiter has a token bucket for each key, in shards. A sweep throws away those that nobody asked
for in ten minutes, and a new key in a crowded shard the oldest ones. **As long as only full buckets
are thrown away, no window of length `d` admits more than `capacity + rate * d` requests of a key**
(`admittedIn_le`, by `Credit.Draws`). A bucket need not be full: a slow rule does not refill it in
ten minutes (`sweep_refills`). Tokens are exact rationals.
-/

namespace Cadish

open List Option Function Transition

def Instant.sub (t u : Instant) : Int := max (-2 ^ 63) (min (2 ^ 63 - 1) (t - u))

namespace RateLimit

def seconds (d : Int) : ℚ := d / 10 ^ 9

def numShards : Nat := 64

def idleTTL : Int := 600 * 10 ^ 9

def maxBucketsPerShard : Nat := 4096

structure Rule where
  ratePerSec : ℚ
  burst : Int
  nonneg : 0 ≤ ratePerSec

def Rule.capacity (r : Rule) : ℚ := if (r.burst : ℚ) < 1 then 1 else r.burst

structure Decision where
  ok : Bool
  retryAfter : Int

structure Bucket where
  tokens : ℚ
  lastFill : Instant
  lastSeen : Instant
deriving DecidableEq

def Bucket.refill (b : Bucket) (r : Rule) (now : Instant) : Bucket :=
  let elapsed := now.sub b.lastFill
  if 0 < elapsed then
    let tokens := b.tokens + r.ratePerSec * seconds elapsed
    { b with tokens := if r.capacity < tokens then r.capacity else tokens, lastFill := now }
  else b

def Rule.retryAfter (r : Rule) (tokens : ℚ) : Int :=
  if 0 < r.ratePerSec then max 1 ⌊(1 - tokens) / r.ratePerSec * 10 ^ 9⌋ else idleTTL

abbrev Shard := FinMap Str Bucket

/-- The time of `evictOldestLocked` before which buckets are dropped. -/
def Shard.cutoff (sh : Shard) (target : Nat) : Instant :=
  let times := (sh.entries.map fun e => e.2.lastSeen).insertionSort (· ≤ ·)
  times.getD (times.length - target) 0

def Shard.evictOldest (sh : Shard) (target : Nat) : Shard :=
  if sh.entries.length ≤ target then sh
  else sh.filter fun _ b => !decide (b.lastSeen < sh.cutoff target)

def Shard.makeRoom (sh : Shard) : Shard :=
  if maxBucketsPerShard ≤ sh.entries.length then sh.evictOldest (maxBucketsPerShard * 7 / 8) else sh

abbrev Limiter := Fin numShards → Shard

def Limiter.new : Limiter := fun _ => ∅

section

variable (shardIndex : Str → Fin numShards)

variable {b : Bucket}

def Limiter.bucket (l : Limiter) (key : Str) : Option Bucket := (l (shardIndex key)).lookup key

/-- The bucket that a request takes from, and the shard that it is put into. -/
def Limiter.fetch (l : Limiter) (now : Instant) (key : Str) (r : Rule) : Shard × Bucket :=
  match l.bucket shardIndex key with
  | none => ((l (shardIndex key)).makeRoom, ⟨r.capacity, now, now⟩)
  | some b => (l (shardIndex key), b.refill r now)

def Limiter.allow (l : Limiter) (now : Instant) (key : Str) (r : Rule) : Decision × Limiter :=
  let (sh, b) := l.fetch shardIndex now key r
  if 1 ≤ b.tokens then
    (⟨true, 0⟩, update l (shardIndex key)
      (sh.insert key { b with tokens := b.tokens - 1, lastSeen := now }))
  else
    (⟨false, r.retryAfter b.tokens⟩, update l (shardIndex key)
      (sh.insert key { b with lastSeen := now }))

def Limiter.sweepShard (l : Limiter) (now : Instant) (i : Fin numShards) : Limiter :=
  update l i ((l i).filter fun _ b => !decide (b.lastSeen < now - idleTTL))

/-! ## Runs -/

inductive Op where
  | allow (now : Instant) (key : Str) (rule : Rule)
  | sweep (now : Instant) (shard : Fin numShards)

def Op.now : Op → Instant
  | .allow now _ _ => now
  | .sweep now _ => now

def step (l : Limiter) : Op → Limiter
  | .allow now key rule => (l.allow shardIndex now key rule).2
  | .sweep now i => l.sweepShard now i

/-- The clock does not go back. A sweep reads it once, before it has all the locks, so that other
requests may come between. -/
def Clocked (ops : List Op) : Prop :=
  ops.Pairwise fun earlier later => ∀ now key rule, later = .allow now key rule → earlier.now ≤ now

/-- The requests of a key, each with its time and whether it was admitted. -/
def history (key : Str) : Limiter → List Op → List (Instant × Bool)
  | _, [] => []
  | l, .allow now k rule :: ops =>
    let rest := history key (step shardIndex l (.allow now k rule)) ops
    if k = key then (now, (l.allow shardIndex now k rule).1.ok) :: rest else rest
  | l, .sweep now i :: ops => history key (step shardIndex l (.sweep now i)) ops

/-- How many requests of a key are admitted in a time, both ends included. -/
def admittedIn (key : Str) (a b : Instant) (l : Limiter) (ops : List Op) : Nat :=
  (history shardIndex key l ops).countP fun q => q.2 && decide (a ≤ q.1) && decide (q.1 ≤ b)

def Discards (key : Str) (l : Limiter) (b : Bucket) : Op → Prop
  | .sweep now i => shardIndex key = i ∧ b.lastSeen < now - idleTTL
  | .allow _ k _ =>
    let sh := l (shardIndex k)
    shardIndex key = shardIndex k ∧ sh.lookup k = none ∧ maxBucketsPerShard ≤ sh.entries.length ∧
      b.lastSeen < sh.cutoff (maxBucketsPerShard * 7 / 8)

/-- If the step throws the bucket of the key away, it is full by then. -/
def Lossless (key : Str) (r : Rule) (l : Limiter) (op : Op) : Prop :=
  ∀ b, l.bucket shardIndex key = some b → Discards shardIndex key l b op →
    r.capacity ≤ b.tokens + r.ratePerSec * seconds (op.now.sub b.lastFill)

/-! ## Buckets -/

theorem Rule.one_le_capacity (r : Rule) : 1 ≤ r.capacity := by
  rw [capacity]
  split
  · exact le_rfl
  · exact not_lt.mp ‹_›

theorem seconds_sub (t u : Int) : seconds (t - u) = seconds t - seconds u := by
  rw [seconds, seconds, seconds, Int.cast_sub, sub_div]

theorem seconds_le {t u : Int} : seconds t ≤ seconds u ↔ t ≤ u := by
  rw [seconds, seconds, div_le_div_iff_of_pos_right (by norm_num), Int.cast_le]

theorem seconds_zero : seconds 0 = 0 := by
  rw [seconds, Int.cast_zero, zero_div]

structure Bucket.Sound (r : Rule) (t : Instant) (b : Bucket) : Prop where
  nonneg : 0 ≤ b.tokens
  le_capacity : b.tokens ≤ r.capacity
  lastFill_le : b.lastFill ≤ t

variable {l : Limiter} {key : Str} {r : Rule} {t t' now : Instant}

theorem Bucket.Sound.mono (h : b.Sound r t) (ht : t ≤ t') : b.Sound r t' :=
  ⟨h.nonneg, h.le_capacity, h.lastFill_le.trans ht⟩

theorem Bucket.tokens_refill (h : b.tokens ≤ r.capacity) (t : Instant) :
    (b.refill r t).tokens =
      min r.capacity (b.tokens + r.ratePerSec * seconds (max 0 (t.sub b.lastFill))) := by
  by_cases hpos : 0 < t.sub b.lastFill
  · rw [refill, if_pos hpos, max_eq_right hpos.le]
    dsimp only
    split
    · exact (min_eq_left (le_of_lt ‹_›)).symm
    · exact (min_eq_right (not_lt.mp ‹_›)).symm
  · rw [refill, if_neg hpos, max_eq_left (not_lt.mp hpos), seconds_zero, mul_zero, add_zero, min_eq_right h]

theorem Bucket.tokens_refill_le (h : b.tokens ≤ r.capacity) (ht : t ≤ t') :
    (b.refill r t').tokens ≤ (b.refill r t).tokens + r.ratePerSec * (seconds t' - seconds t) := by
  rw [tokens_refill h, tokens_refill h]
  have hgap : max 0 (t'.sub b.lastFill) - max 0 (t.sub b.lastFill) ≤ t' - t := by
    simp only [Instant.sub, Instant] at *
    omega
  have hback : r.ratePerSec * (seconds (max 0 (t'.sub b.lastFill)) - seconds (max 0 (t.sub b.lastFill))) ≤
      r.ratePerSec * (seconds t' - seconds t) := by
    refine mul_le_mul_of_nonneg_left ?_ r.nonneg
    rw [← seconds_sub, ← seconds_sub]
    exact seconds_le.mpr hgap
  have hwait : 0 ≤ r.ratePerSec * (seconds t' - seconds t) :=
    mul_nonneg r.nonneg (sub_nonneg.mpr (seconds_le.mpr ht))
  rw [← min_add_add_right]
  refine min_le_min ?_ ?_
  · linarith
  · linarith [mul_sub r.ratePerSec (seconds (max 0 (t'.sub b.lastFill)))
      (seconds (max 0 (t.sub b.lastFill)))]

theorem Bucket.tokens_refill_full (h : b.tokens ≤ r.capacity) (ht : t ≤ t')
    (hfull : r.capacity ≤ b.tokens + r.ratePerSec * seconds (t.sub b.lastFill)) :
    (b.refill r t').tokens = r.capacity := by
  rw [tokens_refill h]
  refine min_eq_left (hfull.trans ?_)
  have hlater : t.sub b.lastFill ≤ max 0 (t'.sub b.lastFill) := by
    simp only [Instant.sub, Instant] at *
    omega
  have hback := mul_le_mul_of_nonneg_left (seconds_le.mpr hlater) r.nonneg
  linarith

theorem Bucket.Sound.refill (h : b.Sound r t) (ht : t ≤ now) :
    (b.refill r now).Sound r now := by
  have htokens := Bucket.tokens_refill h.le_capacity now
  have hback : 0 ≤ r.ratePerSec * seconds (max 0 (now.sub b.lastFill)) := by
    refine mul_nonneg r.nonneg ?_
    rw [← seconds_zero]
    exact seconds_le.mpr (le_max_left _ _)
  refine ⟨?_, ?_, ?_⟩
  · rw [htokens]
    exact le_min (zero_le_one.trans r.one_le_capacity) (add_nonneg h.nonneg hback)
  · rw [htokens]
    exact min_le_left _ _
  · rw [Bucket.refill]
    split
    · exact le_rfl
    · exact h.lastFill_le.trans ht

theorem Bucket.Sound.lastFill_refill (h : b.Sound r t) (ht : t ≤ now) :
    (b.refill r now).lastFill = now := by
  rw [Bucket.refill]
  split
  · rfl
  · have hle : b.lastFill ≤ now := h.lastFill_le.trans ht
    rename_i hpos
    simp only [Instant.sub, Instant] at *
    omega

theorem Bucket.refill_of_lastFill_eq (h : b.lastFill = t) : b.refill r t = b := by
  refine if_neg ?_
  simp [h, Instant.sub]

/-! ## Credit

The tokens that a key would find. -/

/-- The tokens that a request of the key finds at this time. -/
def Limiter.credit (l : Limiter) (key : Str) (r : Rule) (t : Instant) : ℚ :=
  (l.bucket shardIndex key).elim r.capacity fun b => (b.refill r t).tokens

def Limiter.Sound (l : Limiter) (key : Str) (r : Rule) (t : Instant) : Prop :=
  ∀ b, l.bucket shardIndex key = some b → b.Sound r t

variable {shardIndex}

theorem Limiter.credit_none (h : l.bucket shardIndex key = none) :
    l.credit shardIndex key r t = r.capacity := by
  rw [credit, h, elim_none]

theorem Limiter.credit_some (h : l.bucket shardIndex key = some b) :
    l.credit shardIndex key r t = (b.refill r t).tokens := by
  rw [credit, h, elim_some]

theorem Limiter.Sound.credit_le (h : l.Sound shardIndex key r t) (ht : t ≤ t') :
    l.credit shardIndex key r t' ≤
      l.credit shardIndex key r t + r.ratePerSec * (seconds t' - seconds t) := by
  cases hb : l.bucket shardIndex key with
  | none =>
    rw [l.credit_none hb, l.credit_none hb]
    exact le_add_of_nonneg_right (mul_nonneg r.nonneg (sub_nonneg.mpr (seconds_le.mpr ht)))
  | some b =>
    rw [l.credit_some hb, l.credit_some hb]
    exact Bucket.tokens_refill_le (h b hb).le_capacity ht

theorem Limiter.Sound.credit_mem (h : l.Sound shardIndex key r t) (ht : t ≤ now) :
    0 ≤ l.credit shardIndex key r now ∧ l.credit shardIndex key r now ≤ r.capacity := by
  cases hb : l.bucket shardIndex key with
  | none =>
    rw [l.credit_none hb]
    exact ⟨zero_le_one.trans r.one_le_capacity, le_rfl⟩
  | some b =>
    rw [l.credit_some hb]
    have hrefill := (h b hb).refill ht
    exact ⟨hrefill.nonneg, hrefill.le_capacity⟩

/-! ### A request of the key -/

theorem Limiter.tokens_fetch : (l.fetch shardIndex now key r).2.tokens = l.credit shardIndex key r now := by
  rw [fetch, credit]
  cases l.bucket shardIndex key <;> rfl

theorem Limiter.ok_allow :
    (l.allow shardIndex now key r).1.ok = decide (1 ≤ l.credit shardIndex key r now) := by
  rw [← Limiter.tokens_fetch, allow]
  dsimp only
  split <;> simp_all

theorem Limiter.bucket_allow_self :
    (step shardIndex l (.allow now key r)).bucket shardIndex key =
      some { (l.fetch shardIndex now key r).2 with
        tokens := l.credit shardIndex key r now - if 1 ≤ l.credit shardIndex key r now then 1 else 0
        lastSeen := now } := by
  rw [← Limiter.tokens_fetch, step, allow, bucket]
  dsimp only
  split
  · simp
  · simp

theorem Limiter.Sound.allow_self (h : l.Sound shardIndex key r t) (ht : t ≤ now) :
    (step shardIndex l (.allow now key r)).Sound shardIndex key r now ∧
      (step shardIndex l (.allow now key r)).credit shardIndex key r now =
        l.credit shardIndex key r now - if 1 ≤ l.credit shardIndex key r now then 1 else 0 := by
  have hself := @Limiter.bucket_allow_self shardIndex l key r now
  obtain ⟨hzero, hcap⟩ := h.credit_mem ht
  have hfill : (l.fetch shardIndex now key r).2.lastFill = now := by
    rw [fetch]
    cases hb : l.bucket shardIndex key with
    | none => rfl
    | some b => exact (h b hb).lastFill_refill ht
  constructor
  · intro b hb
    cases some.inj (hself.symm.trans hb)
    refine ⟨?_, ?_, hfill.le⟩
    · split
      · exact sub_nonneg.mpr ‹_›
      · rwa [sub_zero]
    · refine (sub_le_self _ ?_).trans hcap
      split
      · exact zero_le_one
      · exact le_rfl
  · rw [Limiter.credit_some hself]
    rw [Bucket.refill_of_lastFill_eq (by exact hfill)]

/-! ### Other steps -/

variable {op : Op}

theorem lookup_makeRoom (sh : Shard) (key : Str) :
    sh.makeRoom.lookup key = sh.lookup key ∨
      sh.makeRoom.lookup key = none ∧ ∃ b, sh.lookup key = some b ∧
        maxBucketsPerShard ≤ sh.entries.length ∧ b.lastSeen < sh.cutoff (maxBucketsPerShard * 7 / 8) := by
  rw [Shard.makeRoom]
  split
  · rename_i hfull
    rw [Shard.evictOldest]
    split
    · exact .inl rfl
    rw [FinMap.lookup_filter]
    cases hb : sh.lookup key with
    | none => exact .inl rfl
    | some b =>
      by_cases hold : b.lastSeen < sh.cutoff (maxBucketsPerShard * 7 / 8)
      · exact .inr ⟨by simp [hold], b, rfl, hfull, hold⟩
      · exact .inl (by simp [hold])
  · exact .inl rfl

def Op.Asks (key : Str) : Op → Prop
  | .allow _ k _ => k = key
  | .sweep _ _ => False

theorem step_allow (l : Limiter) (now : Instant) (k : Str) (rule : Rule) :
    ∃ b : Bucket, b.lastSeen = now ∧ step shardIndex l (.allow now k rule) =
      update l (shardIndex k) ((l.fetch shardIndex now k rule).1.insert k b) := by
  simp only [step, Limiter.allow]
  split <;> exact ⟨_, rfl, rfl⟩

theorem bucket_step (hop : ¬ op.Asks key) :
    (step shardIndex l op).bucket shardIndex key = l.bucket shardIndex key ∨
      (step shardIndex l op).bucket shardIndex key = none ∧
        ∃ b, l.bucket shardIndex key = some b ∧ Discards shardIndex key l b op := by
  cases op with
  | sweep now i =>
    simp only [step, Limiter.sweepShard, Limiter.bucket]
    by_cases hi : shardIndex key = i
    · subst hi
      rw [update_self, FinMap.lookup_filter]
      cases hb : (l (shardIndex key)).lookup key with
      | none => exact .inl rfl
      | some b =>
        by_cases hold : b.lastSeen < now - idleTTL
        · exact .inr ⟨by rw [filter_some, decide_eq_true hold]; rfl, b, rfl, rfl, hold⟩
        · exact .inl (by rw [filter_some, decide_eq_false hold]; rfl)
    · rw [update_of_ne hi]
      exact .inl rfl
  | allow now k rule =>
    have hne : key ≠ k := fun heq => hop heq.symm
    obtain ⟨b', -, hstep⟩ := @step_allow shardIndex l now k rule
    rw [hstep, Limiter.bucket, Limiter.bucket]
    by_cases hi : shardIndex key = shardIndex k
    · rw [hi, update_self, FinMap.lookup_insert_ite, if_neg hne, Limiter.fetch]
      cases hk : l.bucket shardIndex k with
      | some _ => exact .inl rfl
      | none =>
        rcases lookup_makeRoom (l (shardIndex k)) key with hkept | ⟨hgone, b, hb, hfull, hold⟩
        · exact .inl hkept
        · exact .inr ⟨hgone, b, hb, hi, hk, hfull, hold⟩
    · rw [update_of_ne hi]
      exact .inl rfl

theorem Lossless.credit_step (hloss : Lossless shardIndex key r l op) (hop : ¬ op.Asks key)
    (h : l.Sound shardIndex key r t) (ht : t ≤ t') (hnow : op.now ≤ t') :
    (step shardIndex l op).Sound shardIndex key r t' ∧
      (step shardIndex l op).credit shardIndex key r t' = l.credit shardIndex key r t' := by
  rcases @bucket_step shardIndex l key op hop with hkept | ⟨hgone, b, hb, hdiscards⟩
  · refine ⟨fun b hb => (h b (hkept.symm.trans hb)).mono ht, ?_⟩
    rw [Limiter.credit, hkept, Limiter.credit]
  refine ⟨fun b' hb' => ?_, ?_⟩
  · rw [hgone] at hb'
    cases hb'
  · rw [Limiter.credit_none hgone, Limiter.credit_some hb]
    exact (Bucket.tokens_refill_full (h b hb).le_capacity hnow (hloss b hb hdiscards)).symm

/-! ## Runs of one rule -/

def Ruled (key : Str) (r : Rule) (ops : List Op) : Prop :=
  ∀ now rule, Op.allow now key rule ∈ ops → rule = r

variable (shardIndex key r) in
/-- No step of the run throws a bucket of the key away that is not full. -/
def Keeps (l : Limiter) (ops : List Op) : Prop :=
  Transition.Meets (step shardIndex) (Lossless shardIndex key r) l ops

def timed (h : List (Instant × Bool)) : List (ℚ × Bool) := h.map fun q => (seconds q.1, q.2)

theorem admitted_timed (a b : Instant) (h : List (Instant × Bool)) :
    Credit.admitted (seconds a) (seconds b) (timed h) =
      h.countP fun q => q.2 && decide (a ≤ q.1) && decide (q.1 ≤ b) := by
  rw [Credit.admitted, timed, countP_map]
  refine countP_congr fun q _ => ?_
  simp [seconds_le]

theorem history_of_not_asks {ops : List Op} (hop : ¬ op.Asks key) :
    history shardIndex key l (op :: ops) = history shardIndex key (step shardIndex l op) ops := by
  cases op with
  | sweep => rfl
  | allow now k rule => exact if_neg hop

theorem draws_history {ops : List Op} (hclock : Clocked ops) (hrule : Ruled key r ops)
    (hkeeps : Keeps shardIndex key r l ops) (hsound : l.Sound shardIndex key r t)
    (hlate : ∀ now k rule, Op.allow now k rule ∈ ops → t ≤ now) :
    Credit.Draws r.capacity r.ratePerSec (l.credit shardIndex key r t) (seconds t)
      (timed (history shardIndex key l ops)) := by
  induction ops generalizing l t with
  | nil => exact .nil
  | cons op ops ih =>
    obtain ⟨hfirst, hclock'⟩ := pairwise_cons.mp hclock
    have hrule' : Ruled key r ops := fun now rule hmem => hrule now rule (mem_cons_of_mem _ hmem)
    by_cases hop : op.Asks key
    · -- the key asks: its credit has come back a little, and one token may go
      cases op with
      | sweep => cases hop
      | allow now k rule =>
        obtain rfl : k = key := hop
        obtain rfl : rule = r := hrule now rule mem_cons_self
        have hnow : t ≤ now := hlate now k rule mem_cons_self
        obtain ⟨hsound', hcredit⟩ := hsound.allow_self hnow
        obtain ⟨hzero, hcap⟩ := hsound.credit_mem hnow
        have hback := hsound.credit_le hnow
        have hrest := ih hclock' hrule' hkeeps.2 hsound' fun now' k' rule' hmem =>
          hfirst _ hmem now' k' rule' rfl
        rw [hcredit] at hrest
        have hhead : timed (history shardIndex k l (.allow now k rule :: ops)) =
            (seconds now, decide (1 ≤ l.credit shardIndex k rule now)) ::
              timed (history shardIndex k (step shardIndex l (.allow now k rule)) ops) := by
          rw [history, if_pos rfl, Limiter.ok_allow]
          rfl
        rw [hhead]
        by_cases hone : 1 ≤ l.credit shardIndex k rule now
        · rw [if_pos hone] at hrest
          rw [decide_eq_true hone]
          exact .grant (seconds_le.mpr hnow) hcap hback hone hrest
        · rw [if_neg hone, sub_zero] at hrest
          rw [decide_eq_false hone]
          exact .refuse (seconds_le.mpr hnow) hcap hback hzero hrest
    · -- others ask, or the sweep comes: the credit stays, seen from a later time
      rw [history_of_not_asks hop]
      have hlater : ∀ now k rule, Op.allow now k rule ∈ ops → max t op.now ≤ now :=
        fun now k rule hmem => max_le (hlate now k rule (mem_cons_of_mem _ hmem))
          (hfirst _ hmem now k rule rfl)
      obtain ⟨hsound', hcredit⟩ := hkeeps.1.credit_step hop hsound (le_max_left t op.now)
        (le_max_right t op.now)
      have hrest := ih hclock' hrule' hkeeps.2 hsound' hlater
      refine hrest.earlier (seconds_le.mpr (le_max_left t op.now)) ?_
      rw [hcredit]
      exact hsound.credit_le (le_max_left t op.now)

theorem sound_new : Limiter.new.Sound shardIndex key r t := by
  intro b hb
  cases hb

theorem lossless_allow (rule : Rule) : Lossless shardIndex key r l (.allow now key rule) := by
  intro b hb hdiscards
  cases hb.symm.trans hdiscards.2.1

theorem sweep_refills (hr : r.capacity ≤ r.ratePerSec * 600)
    (hseen : ∀ b, l.bucket shardIndex key = some b → 0 ≤ b.tokens ∧ b.lastFill ≤ b.lastSeen)
    (i : Fin numShards) : Lossless shardIndex key r l (.sweep now i) := by
  intro b hb hdiscards
  obtain ⟨hzero, hle⟩ := hseen b hb
  have hidle : (idleTTL : Int) ≤ now.sub b.lastFill := by
    have hold : b.lastSeen < now - idleTTL := hdiscards.2
    simp only [Instant.sub, Instant, idleTTL] at *
    omega
  have hback := mul_le_mul_of_nonneg_left (seconds_le.mpr hidle) r.nonneg
  have hten : seconds idleTTL = 600 := by norm_num [seconds, idleTTL]
  rw [hten] at hback
  change r.capacity ≤ b.tokens + r.ratePerSec * seconds (now.sub b.lastFill)
  linarith

variable (shardIndex key r) in
/-- **As long as only full buckets of a key are thrown away, no window admits more of its requests
than the capacity and what comes back in it.** -/
theorem admittedIn_le (ops : List Op) (hclock : Clocked ops) (hrule : Ruled key r ops)
    (hkeeps : Keeps shardIndex key r Limiter.new ops) (a b : Instant) (hab : a ≤ b) :
    (admittedIn shardIndex key a b Limiter.new ops : ℚ) ≤ r.capacity + r.ratePerSec * seconds (b - a) := by
  obtain ⟨t, ht⟩ := (ops.map Op.now).finite_toSet.bddBelow
  have hdraws := draws_history hclock hrule hkeeps (sound_new (t := t))
    fun now k rule hmem => ht (List.mem_map.mpr ⟨_, hmem, rfl⟩)
  have hwindow := hdraws.window r.nonneg (zero_le_one.trans r.one_le_capacity) (seconds_le.mpr hab)
  rw [admitted_timed, ← seconds_sub] at hwindow
  exact hwindow

def tenPerHour : Rule := ⟨10 / 3600, 2, by norm_num⟩

def firstShard : Fin numShards := ⟨0, by decide⟩

def twoAndTwo (r : Rule) (key : Str) : List Op :=
  [.allow 0 key r, .allow 0 key r, .sweep (660 * 10 ^ 9) firstShard, .allow (660 * 10 ^ 9) key r,
    .allow (660 * 10 ^ 9) key r]

theorem clocked_twoAndTwo (r : Rule) (key : Str) : Clocked (twoAndTwo r key) := by
  have hsorted : (twoAndTwo r key).Pairwise fun earlier later => earlier.now ≤ later.now := by
    simp [twoAndTwo, Op.now]
  refine hsorted.imp fun hle now k rule hlater => ?_
  rwa [hlater] at hle

theorem ruled_twoAndTwo (r : Rule) (key : Str) : Ruled key r (twoAndTwo r key) := by
  intro now rule hmem
  simp only [twoAndTwo, mem_cons, Op.allow.injEq, true_and, reduceCtorEq, not_mem_nil,
    or_false, false_or] at hmem
  rcases hmem with ⟨_, rfl⟩ | ⟨_, rfl⟩ | ⟨_, rfl⟩ | ⟨_, rfl⟩ <;> rfl

/-- **A sweep forgets what a slow rule has counted**: the bucket has not filled in eleven minutes, is
thrown away, and four requests are admitted where the bound is below four. -/
theorem admittedIn_twoAndTwo : Clocked (twoAndTwo tenPerHour (lit "1.2.3.4")) ∧
    Ruled (lit "1.2.3.4") tenPerHour (twoAndTwo tenPerHour (lit "1.2.3.4")) ∧
    ¬ ((admittedIn (fun _ => firstShard) (lit "1.2.3.4") 0 (660 * 10 ^ 9) Limiter.new
        (twoAndTwo tenPerHour (lit "1.2.3.4")) : ℚ) ≤
      tenPerHour.capacity + tenPerHour.ratePerSec * seconds (660 * 10 ^ 9 - 0)) := by
  refine ⟨clocked_twoAndTwo _ _, ruled_twoAndTwo _ _, ?_⟩
  have hfour : admittedIn (fun _ => firstShard) (lit "1.2.3.4") 0 (660 * 10 ^ 9) Limiter.new
      (twoAndTwo tenPerHour (lit "1.2.3.4")) = 4 := by decide +kernel
  rw [hfour]
  norm_num [tenPerHour, Rule.capacity, seconds]

def onePerSecond : Rule := ⟨1, 2, by norm_num⟩

theorem keeps_twoAndTwo :
    Keeps (fun _ => firstShard) (lit "1.2.3.4") onePerSecond Limiter.new
      (twoAndTwo onePerSecond (lit "1.2.3.4")) := by
  refine ⟨lossless_allow _, lossless_allow _, ?_, lossless_allow _, lossless_allow _, trivial⟩
  refine sweep_refills (by norm_num [onePerSecond, Rule.capacity]) (fun b hb => ?_) firstShard
  have hempty : (step (fun _ => firstShard) (step (fun _ => firstShard) Limiter.new
      (.allow 0 (lit "1.2.3.4") onePerSecond)) (.allow 0 (lit "1.2.3.4") onePerSecond)).bucket
        (fun _ => firstShard) (lit "1.2.3.4") = some ⟨0, 0, 0⟩ := by decide +kernel
  cases hempty.symm.trans hb
  exact ⟨le_rfl, le_rfl⟩

theorem admittedIn_le_twoAndTwo : Keeps (fun _ => firstShard) (lit "1.2.3.4") onePerSecond Limiter.new
      (twoAndTwo onePerSecond (lit "1.2.3.4")) ∧
    (admittedIn (fun _ => firstShard) (lit "1.2.3.4") 0 (660 * 10 ^ 9) Limiter.new
        (twoAndTwo onePerSecond (lit "1.2.3.4")) : ℚ) ≤
      onePerSecond.capacity + onePerSecond.ratePerSec * seconds (660 * 10 ^ 9 - 0) :=
  ⟨keeps_twoAndTwo, admittedIn_le _ _ _ _ (clocked_twoAndTwo _ _) (ruled_twoAndTwo _ _) keeps_twoAndTwo _ _
    (by decide)⟩

/-! ## The number of buckets

A crowded shard drops the buckets that were last seen *before* a time. Those that were last seen at
that very time stay, so that nothing is dropped where too many share the oldest one. -/

def Bounded (l : Limiter) : Prop := ∀ i, (l i).entries.length ≤ maxBucketsPerShard

/-- The buckets that have waited longest are not more than an eviction is to drop. -/
def Shard.Spread (sh : Shard) : Prop :=
  sh.entries.countP (fun e => decide (∀ e' ∈ sh.entries, e.2.lastSeen ≤ e'.2.lastSeen)) ≤
    maxBucketsPerShard - maxBucketsPerShard * 7 / 8

/-- A new key that comes to a full shard finds its oldest buckets spread over the time. -/
def Roomy (shardIndex : Str → Fin numShards) (l : Limiter) : Op → Prop
  | .allow _ key _ => l.bucket shardIndex key = none →
      maxBucketsPerShard ≤ (l (shardIndex key)).entries.length → (l (shardIndex key)).Spread
  | .sweep _ _ => True

theorem exists_lt_iff {times before behind : List Instant} {t : Instant} (h : times = before ++ t :: behind)
    (hsorted : times.Pairwise (· ≤ ·)) :
    (∃ u ∈ times, u < t) ↔ times.countP (fun u => decide (∀ v ∈ times, u ≤ v)) ≤ before.length := by
  obtain ⟨-, htail, hbefore⟩ := pairwise_append.mp (h ▸ hsorted)
  obtain ⟨hbehind, -⟩ := pairwise_cons.mp htail
  have hcountP (p : Instant → Bool) : times.countP p = before.countP p + (t :: behind).countP p := by
    rw [h, countP_append]
  rw [hcountP]
  constructor
  · -- what stands behind is later than `u`, so that it has not waited longest
    rintro ⟨u, hu, hlt⟩
    have hnone : (t :: behind).countP (fun v => decide (∀ w ∈ times, v ≤ w)) = 0 := by
      refine countP_eq_zero.mpr fun v hv hall => ?_
      have htv : t ≤ v := (mem_cons.mp hv).elim ge_of_eq (hbehind v)
      exact absurd (htv.trans (of_decide_eq_true hall u hu)) (not_le.mpr hlt)
    rw [hnone]
    exact countP_le_length
  · -- if nothing is earlier than `t`, it has waited longest, and so has all that stands before it
    intro hcount
    by_contra hall
    push Not at hall
    have hlongest {u : Instant} (hu : u ≤ t) : decide (∀ v ∈ times, u ≤ v) = true :=
      decide_eq_true fun v hv => hu.trans (hall v hv)
    have hfirst := countP_eq_length.mpr fun u hu => hlongest (hbefore u hu t mem_cons_self)
    have hself : 0 < (t :: behind).countP (fun u => decide (∀ v ∈ times, u ≤ v)) :=
      countP_pos_iff.mpr ⟨t, mem_cons_self, hlongest le_rfl⟩
    omega

/-- **A full shard gets smaller exactly if its oldest buckets are spread.** -/
theorem length_makeRoom_lt_iff {sh : Shard} (hfull : sh.entries.length = maxBucketsPerShard) :
    sh.makeRoom.entries.length < maxBucketsPerShard ↔ sh.Spread := by
  let times := (sh.entries.map fun e => e.2.lastSeen).insertionSort (· ≤ ·)
  have hperm : times ~ sh.entries.map fun e => e.2.lastSeen := perm_insertionSort _ _
  have hlength : times.length = maxBucketsPerShard := by
    rw [hperm.length_eq, length_map, hfull]
  have hn : maxBucketsPerShard - maxBucketsPerShard * 7 / 8 < times.length := by
    rw [hlength]
    decide
  have hcutoff : sh.cutoff (maxBucketsPerShard * 7 / 8) =
      times[maxBucketsPerShard - maxBucketsPerShard * 7 / 8] := by
    change times.getD (times.length - _) 0 = _
    rw [hlength, getD_eq_getElem?_getD, getElem?_eq_getElem hn, getD_some]
  have hsplit := (take_append_drop (maxBucketsPerShard - maxBucketsPerShard * 7 / 8) times).symm
  rw [drop_eq_getElem_cons hn, ← hcutoff] at hsplit
  have hcount := exists_lt_iff hsplit (pairwise_insertionSort _ _)
  rw [hperm.countP_eq, countP_map, length_take_of_le hn.le] at hcount
  simp only [hperm.mem_iff, List.mem_map, exists_exists_and_eq_and] at hcount
  have hcrowded : ¬ sh.entries.length ≤ maxBucketsPerShard * 7 / 8 := by
    rw [hfull]
    decide
  have hdrops : sh.makeRoom.entries.length < maxBucketsPerShard ↔
      ∃ e ∈ sh.entries, e.2.lastSeen < sh.cutoff (maxBucketsPerShard * 7 / 8) := by
    rw [Shard.makeRoom, if_pos hfull.ge, Shard.evictOldest, if_neg hcrowded]
    refine (Iff.of_eq (congrArg (_ < ·) hfull.symm)).trans (length_filter_lt_length_iff_exists.trans ?_)
    simp
  rw [hdrops, hcount]
  refine Iff.of_eq (congrArg (· ≤ _) (countP_congr fun e _ => ?_))
  simp only [comp_apply, hperm.mem_iff, List.forall_mem_map]

theorem length_makeRoom_le (sh : Shard) : sh.makeRoom.entries.length ≤ sh.entries.length := by
  rw [Shard.makeRoom, Shard.evictOldest]
  split
  · split
    · exact le_rfl
    · exact length_filter_le _ _
  · exact le_rfl

/-- How many buckets there are in the shard of a key that asked. -/
theorem length_allow (l : Limiter) (now : Instant) (key : Str) (r : Rule) :
    (step shardIndex l (.allow now key r) (shardIndex key)).entries.length =
      if l.bucket shardIndex key = none then (l (shardIndex key)).makeRoom.entries.length + 1
      else (l (shardIndex key)).entries.length := by
  obtain ⟨b, -, hstep⟩ := @step_allow shardIndex l now key r
  rw [hstep, update_self, FinMap.length_insert, Limiter.fetch]
  cases hb : l.bucket shardIndex key with
  | some b' =>
    have hold : (l (shardIndex key)).lookup key = some b' := hb
    simp [hold]
  | none =>
    have hnew : (l (shardIndex key)).makeRoom.lookup key = none := by
      rcases lookup_makeRoom (l (shardIndex key)) key with hkept | ⟨hgone, -⟩
      · exact hkept.trans hb
      · exact hgone
    simp [hnew]

theorem bounded_allow_iff (h : Bounded l) (now : Instant) (key : Str) (r : Rule) :
    Bounded (step shardIndex l (.allow now key r)) ↔ Roomy shardIndex l (.allow now key r) := by
  have hothers : Bounded (step shardIndex l (.allow now key r)) ↔
      (step shardIndex l (.allow now key r) (shardIndex key)).entries.length ≤ maxBucketsPerShard := by
    refine ⟨fun hall => hall _, fun hself i => ?_⟩
    by_cases hi : i = shardIndex key
    · rwa [hi]
    · obtain ⟨b, -, hstep⟩ := @step_allow shardIndex l now key r
      rw [hstep, update_of_ne hi]
      exact h i
  rw [hothers, length_allow, Roomy]
  split
  case isFalse hold => simp [hold, h (shardIndex key)]
  case isTrue hnew =>
    by_cases hfull : (l (shardIndex key)).entries.length = maxBucketsPerShard
    · simp [hnew, hfull.ge, ← length_makeRoom_lt_iff hfull, Nat.succ_le_iff]
    · have hlt := lt_of_le_of_ne (h (shardIndex key)) hfull
      simp [not_le.mpr hlt, ((length_makeRoom_le _).trans_lt hlt).nat_succ_le]

theorem Bounded.step (h : Bounded l) (hroom : Roomy shardIndex l op) : Bounded (step shardIndex l op) := by
  cases op with
  | allow now key r => exact (bounded_allow_iff h now key r).mpr hroom
  | sweep now i =>
    intro j
    simp only [RateLimit.step, Limiter.sweepShard]
    by_cases hj : j = i
    · subst hj
      rw [update_self]
      exact (length_filter_le _ _).trans (h j)
    · rw [update_of_ne hj]
      exact h j

def flood (r : Rule) (keys : List Str) : List Op := keys.map fun key => .allow 0 key r

theorem makeRoom_of_tied {sh : Shard} (h : ∀ e ∈ sh.entries, e.2.lastSeen = 0) : sh.makeRoom = sh := by
  have hcutoff (n : Nat) : sh.cutoff n = 0 := by
    have htied : ∀ t ∈ (sh.entries.map fun e => e.2.lastSeen).insertionSort (· ≤ ·), t = 0 := by
      simpa only [mem_insertionSort, List.forall_mem_map] using h
    rw [Shard.cutoff, eq_replicate_of_mem htied]
    simp only [getD_eq_getElem?_getD, getElem?_replicate]
    split <;> rfl
  have hkeeps (n : Nat) : sh.evictOldest n = sh := by
    rw [Shard.evictOldest, hcutoff]
    split
    · rfl
    · refine AList.ext (filter_eq_self.mpr fun e he => ?_)
      simp [h e he]
  rw [Shard.makeRoom, hkeeps, ite_self]

theorem length_flood {i : Fin numShards} {keys : List Str} (hnodup : keys.Nodup)
    (hshard : ∀ key ∈ keys, shardIndex key = i) :
    let sh := run (step shardIndex) Limiter.new (flood r keys) i
    sh.entries.length = keys.length ∧ ∀ e ∈ sh.entries, e.1 ∈ keys ∧ e.2.lastSeen = 0 := by
  induction keys using reverseRecOn with
  | nil => exact ⟨rfl, fun e he => nomatch he⟩
  | append_singleton keys key ih =>
    obtain ⟨hold, -, hfresh⟩ := nodup_append.mp hnodup
    obtain ⟨hlength, hseen⟩ := ih hold fun k hk => hshard k (mem_append_left _ hk)
    obtain rfl := hshard key (by simp)
    simp only [flood, map_append, run_append, map_cons, map_nil, run_cons,
      run_nil] at hlength hseen ⊢
    generalize run (step shardIndex) Limiter.new
      (keys.map fun key => Op.allow 0 key r) = l at hlength hseen ⊢
    -- the key is new, and nothing is dropped for it
    have hnew : l.bucket shardIndex key = none := by
      refine AList.lookup_eq_none.mpr fun hmem => ?_
      obtain ⟨b, hb⟩ := mem_keys.mp hmem
      exact hfresh key (hseen _ hb).1 key (by simp) rfl
    have hroom := makeRoom_of_tied fun e he => (hseen e he).2
    constructor
    · rw [length_allow, if_pos hnew, hroom, hlength, length_append, length_singleton]
    · obtain ⟨b, hb, hstep⟩ := @step_allow shardIndex l 0 key r
      have hfetch : (l.fetch shardIndex 0 key r).1 = l (shardIndex key) := by
        rw [Limiter.fetch, hnew]
        exact hroom
      rw [hstep, update_self, hfetch, AList.entries_insert_of_notMem (AList.lookup_eq_none.mp hnew)]
      refine forall_mem_cons.mpr ⟨⟨by simp, hb⟩, fun e he => ?_⟩
      exact ⟨mem_append_left _ (hseen e he).1, (hseen e he).2⟩

end

end RateLimit

end Cadish
