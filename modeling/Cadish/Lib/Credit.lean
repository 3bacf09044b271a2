import Mathlib.Algebra.Order.Field.Basic
import Mathlib.Tactic.Linarith
import Mathlib.Tactic.Ring

/-!
# Credit that comes back with time

An account has credit of at most `c`, which comes back at a rate `r`, and a request that is admitted
takes one. **At most `c + r * d` requests are admitted in any time of length `d`** (`Draws.window`).
-/

universe u

namespace Credit

section

variable {K : Type u} [LinearOrder K]

/-- The requests that are admitted between two times. -/
def admitted (a b : K) (history : List (K × Bool)) : ℕ :=
  history.countP fun q => q.2 && decide (a ≤ q.1) && decide (q.1 ≤ b)

theorem admitted_cons (a b now : K) (ok : Bool) (rest : List (K × Bool)) :
    admitted a b ((now, ok) :: rest) =
      admitted a b rest + if ok = true ∧ a ≤ now ∧ now ≤ b then 1 else 0 := by
  rw [admitted, List.countP_cons, admitted]
  simp [and_assoc]

end

variable {K : Type u} [Field K] [LinearOrder K]

/-- A history of requests, each with its time and whether it was admitted, of an account that has
this credit at this time. Credit may get lost. -/
inductive Draws (c r : K) : K → K → List (K × Bool) → Prop
  | nil {level now : K} : Draws c r level now []
  | grant {level now level' now' : K} {rest : List (K × Bool)} (hnow : now ≤ now')
    (hcap : level' ≤ c) (hback : level' ≤ level + r * (now' - now)) (hone : 1 ≤ level')
    (hrest : Draws c r (level' - 1) now' rest) : Draws c r level now ((now', true) :: rest)
  | refuse {level now level' now' : K} {rest : List (K × Bool)} (hnow : now ≤ now')
    (hcap : level' ≤ c) (hback : level' ≤ level + r * (now' - now)) (hzero : 0 ≤ level')
    (hrest : Draws c r level' now' rest) : Draws c r level now ((now', false) :: rest)

variable {c r level now : K} {history : List (K × Bool)}

theorem Draws.le_of_mem (h : Draws c r level now history) {q : K × Bool} (hq : q ∈ history) :
    now ≤ q.1 := by
  induction h with
  | nil => cases hq
  | grant hnow _ _ _ _ ih | refuse hnow _ _ _ _ ih =>
    rcases List.mem_cons.mp hq with rfl | hq
    · exact hnow
    · exact hnow.trans (ih hq)

theorem Draws.admitted_of_lt (h : Draws c r level now history) {b : K} (hb : b < now) (a : K) :
    admitted a b history = 0 := by
  refine List.countP_eq_zero.mpr fun q hq => ?_
  have hlate : ¬ q.1 ≤ b := not_le.mpr (hb.trans_le (h.le_of_mem hq))
  simp [hlate]

omit [LinearOrder K] in
theorem back_split (r a b m : K) : r * (b - a) = r * (m - a) + r * (b - m) := by ring

variable [IsStrictOrderedRing K]

theorem Draws.earlier {level₀ now₀ : K} (h : Draws c r level now history) (hnow : now₀ ≤ now)
    (hlevel : level ≤ level₀ + r * (now - now₀)) : Draws c r level₀ now₀ history := by
  have hback : ∀ {level' now' : K}, level' ≤ level + r * (now' - now) →
      level' ≤ level₀ + r * (now' - now₀) := by
    intro level' now' hle
    linarith [back_split r now₀ now' now]
  cases h with
  | nil => exact .nil
  | grant hnow' hcap hle hone hrest => exact .grant (hnow.trans hnow') hcap (hback hle) hone hrest
  | refuse hnow' hcap hle hzero hrest => exact .refuse (hnow.trans hnow') hcap (hback hle) hzero hrest

theorem Draws.admitted_le (h : Draws c r level now history) (hlevel : 0 ≤ level) (hr : 0 ≤ r) {a b : K}
    (hb : now ≤ b) : (admitted a b history : K) ≤ level + r * (b - now) := by
  induction h with
  | nil =>
    have hback : 0 ≤ r * (b - _) := mul_nonneg hr (sub_nonneg.mpr hb)
    simpa [admitted] using add_nonneg hlevel hback
  | @grant level now level' now' rest hnow hcap hback hone hrest ih =>
    rw [admitted_cons]
    by_cases hlate : now' ≤ b
    · have hrest := ih (sub_nonneg.mpr hone) hlate
      have hself : ((if true = true ∧ a ≤ now' ∧ now' ≤ b then 1 else 0 : ℕ) : K) ≤ 1 := by
        split <;> simp
      rw [Nat.cast_add]
      linarith [back_split r now b now']
    · have hnone := hrest.admitted_of_lt (not_le.mp hlate) a
      have hwait : 0 ≤ r * (b - now) := mul_nonneg hr (sub_nonneg.mpr hb)
      rw [hnone, if_neg fun hself => hlate hself.2.2]
      simpa using add_nonneg hlevel hwait
  | @refuse level now level' now' rest hnow hcap hback hzero hrest ih =>
    rw [admitted_cons, if_neg fun hself => Bool.false_ne_true hself.1, Nat.add_zero]
    by_cases hlate : now' ≤ b
    · have hrest := ih hzero hlate
      linarith [back_split r now b now']
    · have hnone := hrest.admitted_of_lt (not_le.mp hlate) a
      have hwait : 0 ≤ r * (b - now) := mul_nonneg hr (sub_nonneg.mpr hb)
      rw [hnone]
      simpa using add_nonneg hlevel hwait

theorem Draws.window (h : Draws c r level now history) (hr : 0 ≤ r) (hc : 0 ≤ c) {a b : K} (hab : a ≤ b) :
    (admitted a b history : K) ≤ c + r * (b - a) := by
  have hwait : 0 ≤ r * (b - a) := mul_nonneg hr (sub_nonneg.mpr hab)
  induction h with
  | nil => simpa [admitted] using add_nonneg hc hwait
  | @grant level now level' now' rest hnow hcap hback hone hrest ih =>
    by_cases hbefore : a ≤ now'
    · by_cases hlate : now' ≤ b
      · -- the window begins here
        have hall : Draws c r level' now' ((now', true) :: rest) :=
          .grant le_rfl hcap (by rw [sub_self, mul_zero, add_zero]) hone hrest
        have hle := hall.admitted_le (zero_le_one.trans hone) hr (a := a) hlate
        have hgap : 0 ≤ r * (now' - a) := mul_nonneg hr (sub_nonneg.mpr hbefore)
        linarith [back_split r a b now']
      · have hnone := hrest.admitted_of_lt (not_le.mp hlate) a
        rw [admitted_cons, hnone, if_neg fun hself => hlate hself.2.2]
        simpa using add_nonneg hc hwait
    · rw [admitted_cons, if_neg fun hself => hbefore hself.2.1]
      exact ih
  | @refuse level now level' now' rest hnow hcap hback hzero hrest ih =>
    exact ih

end Credit
