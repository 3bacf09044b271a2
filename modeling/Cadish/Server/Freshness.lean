import Mathlib.Order.Basic
import Cadish.Lib.FinMap
import Cadish.Text
import Cadish.Time

/-!
# The freshness index

Per cache key the server remembers until when the last response is fresh, may be served stale, may
stand in for a failing origin, or that the key is not to be cached (hit-for-miss). A regex purge is
a *ban*: an entry that a later ban matches counts as absent. The shards of the source are one map
here, and an operation reads the clock once.
-/

namespace Cadish

abbrev Key := Str

/-- An entry of the index. The source has one record whose `hfmUntil` is zero for a stored
object; `maxStaleUntil` is zero, here `none`, when no `max_stale` window was set. -/
inductive FreshEntry where
  | object (storedAt expires graceUntil : Instant) (maxStaleUntil : Option Instant)
  | hitForMiss (storedAt hfmUntil : Instant)
deriving DecidableEq, Repr

def FreshEntry.storedAt : FreshEntry → Instant
  | .object storedAt _ _ _ => storedAt
  | .hitForMiss storedAt _ => storedAt

def FreshEntry.isObject : FreshEntry → Bool
  | .object _ _ _ _ => true
  | .hitForMiss _ _ => false

inductive FreshState where
  | miss
  | fresh
  | stale
deriving DecidableEq, Repr

/-- A ban: the pattern of the purge, as the set of keys it matches, and when it was issued. -/
structure BanEntry where
  re : Key → Bool
  issuedAt : Instant

/-- The index. `maxGrace` is the longest retention window recorded so far. -/
structure Freshness where
  entries : FinMap Key FreshEntry
  bans : List BanEntry
  maxGrace : Duration

namespace Freshness

def maxBans : Nat := 256

def new : Freshness := ⟨∅, [], 0⟩

variable (f : Freshness) (now : Instant) (key : Key)

def banned (storedAt : Instant) : Bool :=
  if f.bans.length = 0 then false
  else f.bans.any fun b => decide (storedAt < b.issuedAt) && b.re key

def delete : Freshness :=
  { f with entries := f.entries.erase key }

def put (e : FreshEntry) : Freshness :=
  { f with entries := f.entries.insert key e }

def observeWindow (w : Duration) : Freshness :=
  if w ≤ f.maxGrace then f else { f with maxGrace := w }

/-- Record a positive cache decision: fresh for `ttl`, then stale for `grace`, then a fallback
for `maxStale`. -/
def store (ttl grace maxStale : Duration) :
    Freshness :=
  let e := .object now (now.add ttl) (now.add (ttl + grace))
    (if 0 < maxStale then some (now.add (ttl + grace + maxStale)) else none)
  (f.put key e).observeWindow (ttl + grace + maxStale)

def setHitForMiss (d : Duration) : Freshness :=
  (f.put key (.hitForMiss now (now.add d))).observeWindow d

/-- Whether an entry past grace is past its whole retention window. -/
def prunable (maxStaleUntil : Option Instant) (now : Instant) : Bool :=
  match maxStaleUntil with
  | some m => !decide (now < m)
  | none => true

/-- Whether the key is in a hit-for-miss window; drops a marker that is over or banned. -/
def hitForMiss : Freshness × Bool :=
  match f.entries.lookup key with
  | some (.hitForMiss storedAt hfmUntil) =>
    if now < hfmUntil then
      if f.banned key storedAt then (f.delete key, false) else (f, true)
    else (f.delete key, false)
  | _ => (f, false)

/-- The slow path of `classify`: decide again, and delete an entry that can serve no more. -/
def classifyPrune :
    Freshness × FreshState × Bool :=
  match f.entries.lookup key with
  | none => (f, .miss, false)
  | some (.hitForMiss storedAt hfmUntil) =>
    if now < hfmUntil then
      if f.banned key storedAt then (f.delete key, .miss, false) else (f, .miss, true)
    else (f.delete key, .miss, false)
  | some (.object storedAt expires graceUntil maxStaleUntil) =>
    if f.banned key storedAt then (f.delete key, .miss, false)
    else if now < expires then (f, .fresh, false)
    else if now < graceUntil then (f, .stale, false)
    else if prunable maxStaleUntil now then (f.delete key, .miss, false)
    -- past grace and inside `max_stale`: a miss that keeps its entry for the error path
    else (f, .miss, false)

/-- The lookup of the serve path: the class of the key and whether it is in a hit-for-miss
window. The entries that serve are answered under the read lock, without a change. -/
def classify : Freshness × FreshState × Bool :=
  match f.entries.lookup key with
  | none => (f, .miss, false)
  | some (.hitForMiss storedAt hfmUntil) =>
    if now < hfmUntil ∧ ¬ f.banned key storedAt then (f, .miss, true)
    else f.classifyPrune now key
  | some (.object storedAt expires graceUntil _) =>
    if ¬ f.banned key storedAt ∧ now < expires then (f, .fresh, false)
    else if ¬ f.banned key storedAt ∧ now < graceUntil then (f, .stale, false)
    else f.classifyPrune now key

/-- The half of `classify` under the read lock. Without an answer it goes on to `classifyPrune`. -/
def classifyRead : Option (FreshState × Bool) :=
  match f.entries.lookup key with
  | none => some (.miss, false)
  | some (.hitForMiss storedAt hfmUntil) =>
    if now < hfmUntil ∧ ¬ f.banned key storedAt then some (.miss, true) else none
  | some (.object storedAt expires graceUntil _) =>
    if ¬ f.banned key storedAt ∧ now < expires then some (.fresh, false)
    else if ¬ f.banned key storedAt ∧ now < graceUntil then some (.stale, false)
    else none

def lookup : Freshness × FreshState :=
  match f.entries.lookup key with
  | none => (f, .miss)
  | some (.hitForMiss _ _) => (f, .miss)
  | some (.object storedAt expires graceUntil maxStaleUntil) =>
    if f.banned key storedAt then (f.delete key, .miss)
    else if now < expires then (f, .fresh)
    else if now < graceUntil then (f, .stale)
    else if prunable maxStaleUntil now then (f.delete key, .miss)
    else (f, .miss)

/-- Whether the key's object may stand in for a failing origin: past grace, inside
`max_stale`, not banned. -/
def staleWithin : Bool :=
  match f.entries.lookup key with
  | some (.object storedAt _ graceUntil (some maxStaleUntil)) =>
    if f.banned key storedAt then false
    else !decide (now < graceUntil) && decide (now < maxStaleUntil)
  | _ => false

def entryReclaimable (e : FreshEntry) : Bool :=
  if f.banned key e.storedAt then true
  else match e with
    | .hitForMiss _ hfmUntil => !decide (now < hfmUntil)
    | .object _ _ graceUntil maxStaleUntil =>
      if now < graceUntil then false else prunable maxStaleUntil now

def sweep : Freshness :=
  { f with entries := f.entries.filter fun key e => !f.entryReclaimable now key e }

/-- The bans a new ban keeps: those younger than twice the longest window. -/
def keptBans : List BanEntry :=
  f.bans.filter fun b => decide (now.add (-2 * f.maxGrace) < b.issuedAt)

/-- Register a ban: prune the old ones, drop the oldest if the list is still full, append.
Returns how many entries it invalidates. -/
def ban (re : Key → Bool) : Freshness × Nat :=
  let matched := f.entries.count fun key e => decide (e.storedAt < now) && re key
  let kept := f.keptBans now
  let capped := if maxBans ≤ kept.length then kept.drop (kept.length - maxBans + 1) else kept
  ({ f with bans := capped ++ [⟨re, now⟩] }, matched)

/-- When the key's object was recorded, for the `Age` header. -/
def storedAt : Option Instant :=
  match f.entries.lookup key with
  | some (.object storedAt _ _ _) => some storedAt
  | _ => none

/-- The TTL assigned to the key's object, for the advertised `max-age`. -/
def lifetime : Option Int :=
  match f.entries.lookup key with
  | some (.object storedAt expires _ _) => some (max (expires - storedAt) 0)
  | _ => none

def forget : Freshness := f.delete key

/-! ## What the lookups decide -/

section

variable {f : Freshness} {now : Instant} {key : Key} {e : FreshEntry}

def classifyDrops (now : Instant) : FreshEntry → Bool → Bool
  | .hitForMiss _ hfmUntil, banned => banned || !decide (now < hfmUntil)
  | .object _ expires graceUntil maxStaleUntil, banned =>
    banned || (!decide (now < expires) && !decide (now < graceUntil) && prunable maxStaleUntil now)

def classifyVerdict (now : Instant) : FreshEntry → Bool → FreshState × Bool
  | .hitForMiss _ hfmUntil, banned => (.miss, !banned && decide (now < hfmUntil))
  | .object _ expires graceUntil _, banned =>
    (if banned then .miss else if now < expires then .fresh
      else if now < graceUntil then .stale else .miss, false)

theorem classifyPrune_eq (he : f.entries.lookup key = some e) :
    f.classifyPrune now key =
      (if classifyDrops now e (f.banned key e.storedAt) then f.delete key else f,
        classifyVerdict now e (f.banned key e.storedAt)) := by
  cases e with
  | hitForMiss storedAt hfmUntil =>
    rw [classifyPrune, he]
    simp only [FreshEntry.storedAt]
    by_cases hb : f.banned key storedAt = true <;> by_cases hlt : now < hfmUntil <;>
      simp [hb, hlt, classifyDrops, classifyVerdict]
  | object storedAt expires graceUntil maxStaleUntil =>
    rw [classifyPrune, he]
    simp only [FreshEntry.storedAt]
    by_cases hb : f.banned key storedAt = true <;> by_cases hx : now < expires <;>
      by_cases hg : now < graceUntil <;>
      simp [hb, hx, hg, classifyDrops, classifyVerdict]
    split <;> rfl

theorem classify_halves (f : Freshness) (now : Instant) (key : Key) :
    f.classify now key = (f.classifyRead now key).elim (f.classifyPrune now key) (Prod.mk f) := by
  rw [classify, classifyRead]
  repeat' split
  all_goals rfl

/-- What is answered under the read lock is what the slow path would say. -/
theorem classifyPrune_of_read {answer : FreshState × Bool}
    (h : f.classifyRead now key = some answer) : f.classifyPrune now key = (f, answer) := by
  rw [classifyRead] at h
  split at h
  case h_1 he =>
    cases h
    simp only [classifyPrune, he]
  case h_2 storedAt hfmUntil he =>
    split at h <;> cases h
    case isTrue.refl h => simp [classifyPrune, he, h.1, h.2]
  case h_3 storedAt expires graceUntil maxStaleUntil he =>
    split at h
    case isTrue hx =>
      cases h
      simp [classifyPrune, he, hx.1, hx.2]
    case isFalse hx =>
      split at h <;> cases h
      case isTrue.refl hg =>
        have hover : ¬ now < expires := fun hlt => hx ⟨hg.1, hlt⟩
        simp [classifyPrune, he, hg.1, hg.2, hover]

theorem classify_eq_classifyPrune (f : Freshness) (now : Instant) (key : Key) :
    f.classify now key = f.classifyPrune now key := by
  rw [classify_halves]
  cases hread : f.classifyRead now key with
  | none => rfl
  | some answer => exact (classifyPrune_of_read hread).symm

theorem classify_eq (he : f.entries.lookup key = some e) :
    f.classify now key =
      (if classifyDrops now e (f.banned key e.storedAt) then f.delete key else f,
        classifyVerdict now e (f.banned key e.storedAt)) :=
  (classify_eq_classifyPrune f now key).trans (classifyPrune_eq he)

theorem hitForMiss_eq (he : f.entries.lookup key = some e) :
    f.hitForMiss now key =
      (if !e.isObject && classifyDrops now e (f.banned key e.storedAt) then f.delete key else f,
        (classifyVerdict now e (f.banned key e.storedAt)).2) := by
  cases e with
  | object storedAt expires graceUntil maxStaleUntil =>
    simp [hitForMiss, he, FreshEntry.isObject, classifyVerdict]
  | hitForMiss storedAt hfmUntil =>
    simp only [hitForMiss, he, FreshEntry.storedAt]
    by_cases hb : f.banned key storedAt = true <;> by_cases hlt : now < hfmUntil <;>
      simp [hb, hlt, FreshEntry.isObject, classifyDrops, classifyVerdict]

theorem lookup_eq (he : f.entries.lookup key = some e) :
    f.lookup now key =
      (if e.isObject && classifyDrops now e (f.banned key e.storedAt) then f.delete key else f,
        (classifyVerdict now e (f.banned key e.storedAt)).1) := by
  cases e with
  | hitForMiss storedAt hfmUntil => simp [Freshness.lookup, he, FreshEntry.isObject, classifyVerdict]
  | object storedAt expires graceUntil maxStaleUntil =>
    simp only [Freshness.lookup, he, FreshEntry.storedAt]
    by_cases hb : f.banned key storedAt = true <;> by_cases hx : now < expires <;>
      by_cases hg : now < graceUntil <;>
      simp [hb, hx, hg, FreshEntry.isObject, classifyDrops, classifyVerdict]
    split <;> rfl

theorem prunable_of_le {maxStaleUntil : Option Instant} (h : ∀ m ∈ maxStaleUntil, m ≤ now) :
    prunable maxStaleUntil now = true := by
  cases maxStaleUntil with
  | none => rfl
  | some m => simp [prunable, h m rfl]

end

/-! ## What the updates leave alone -/

variable (f : Freshness) (now : Instant) (key : Key)

@[simp] theorem put_bans (e : FreshEntry) :
    (f.put key e).bans = f.bans := rfl

@[simp] theorem observeWindow_entries (w : Duration) :
    (f.observeWindow w).entries = f.entries := by
  unfold observeWindow
  split <;> rfl

@[simp] theorem observeWindow_bans (w : Duration) :
    (f.observeWindow w).bans = f.bans := by
  unfold observeWindow
  split <;> rfl

/-- The lookups only drop entries: what they leave was there, and the bans and the longest
window do not move. -/
structure Shrinks (f f' : Freshness) : Prop where
  entries : ∀ key e, e ∈ f'.entries.lookup key → e ∈ f.entries.lookup key
  bans : f'.bans = f.bans
  maxGrace : f'.maxGrace = f.maxGrace

theorem Shrinks.refl : Shrinks f f := ⟨fun _ _ h => h, rfl, rfl⟩

theorem delete_shrinks : Shrinks f (f.delete key) :=
  ⟨fun _ _ he => FinMap.mem_lookup_erase he, rfl, rfl⟩

theorem hitForMiss_shrinks :
    Shrinks f (f.hitForMiss now key).1 := by
  unfold hitForMiss
  repeat' split
  all_goals first | exact .refl f | exact delete_shrinks f key

theorem classifyPrune_shrinks :
    Shrinks f (f.classifyPrune now key).1 := by
  unfold classifyPrune
  repeat' split
  all_goals first | exact .refl f | exact delete_shrinks f key

theorem classify_shrinks :
    Shrinks f (f.classify now key).1 := by
  unfold classify
  repeat' split
  all_goals first | exact .refl f | exact classifyPrune_shrinks f now key

theorem lookup_shrinks :
    Shrinks f (f.lookup now key).1 := by
  unfold Freshness.lookup
  repeat' split
  all_goals first | exact .refl f | exact delete_shrinks f key

theorem sweep_shrinks : Shrinks f (f.sweep now) :=
  ⟨fun _ _ he => (FinMap.mem_lookup_filter.mp he).1, rfl, rfl⟩

end Freshness

end Cadish
