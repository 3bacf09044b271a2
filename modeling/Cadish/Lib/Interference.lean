import Cadish.Lib.Run

/-!
# Noninterference

Actions do not interfere with what a party sees if they can be left out of a run without a change in
its outcomes. The proof is a simulation between the whole run and the reduced one (`outcomes_eq`).
-/

namespace Interference

open Transition

universe u v w

variable {σ : Type u} {α : Type v} {ο : Type w}

/-- `l'` is `l` without some of its actions, each of which may be left out. -/
inductive Drops (p : α → Prop) : List α → List α → Prop where
  | nil : Drops p [] []
  | keep (a : α) {l l' : List α} : Drops p l l' → Drops p (a :: l) (a :: l')
  | drop {a : α} {l l' : List α} : p a → Drops p l l' → Drops p (a :: l) l'

def next (step : σ → α → σ × ο) (s : σ) (a : α) : σ := (step s a).1

def outcomes (step : σ → α → σ × ο) (sees : α → Bool) : σ → List α → List ο
  | _, [] => []
  | s, a :: l =>
    if sees a then (step s a).2 :: outcomes step sees (next step s a) l
    else outcomes step sees (next step s a) l

variable {step : σ → α → σ × ο} {sees : α → Bool} {p : α → Prop} {ok ok' : σ → α → Prop}
  {R : σ → σ → Prop}

/-- **Noninterference.** If a relation is kept by the actions of both runs, with equal outcomes
where they are seen, and by the actions left out of the second, then both runs show the same. -/
theorem outcomes_eq
    (hkeep : ∀ s t a, R s t → ok s a → ok' t a →
      R (next step s a) (next step t a) ∧ (sees a = true → (step s a).2 = (step t a).2))
    (hdrop : ∀ s t a, R s t → ok s a → p a → R (next step s a) t ∧ sees a = false)
    {s t : σ} {l l' : List α} (hR : R s t) (hd : Drops p l l') (hl : Meets (next step) ok s l)
    (hl' : Meets (next step) ok' t l') : outcomes step sees s l = outcomes step sees t l' := by
  induction hd generalizing s t with
  | nil => rfl
  | keep a _ ih =>
    obtain ⟨hR, hsame⟩ := hkeep s t a hR hl.1 hl'.1
    rw [outcomes, outcomes, ih hR hl.2 hl'.2]
    split
    case isTrue hsees => rw [hsame hsees]
    case isFalse => rfl
  | @drop a _ _ hp _ ih =>
    obtain ⟨hR, hunseen⟩ := hdrop s t a hR hl.1 hp
    rw [outcomes, hunseen, ih hR hl.2 hl']
    rfl

theorem run_related
    (hkeep : ∀ s t a, R s t → ok s a → ok' t a → R (next step s a) (next step t a))
    (hdrop : ∀ s t a, R s t → ok s a → p a → R (next step s a) t)
    {s t : σ} {l l' : List α} (hR : R s t) (hd : Drops p l l') (hl : Meets (next step) ok s l)
    (hl' : Meets (next step) ok' t l') : R (run (next step) s l) (run (next step) t l') := by
  induction hd generalizing s t with
  | nil => exact hR
  | keep a _ ih => exact ih (hkeep s t a hR hl.1 hl'.1) hl.2 hl'.2
  | @drop a _ _ hp _ ih => exact ih (hdrop s t a hR hl.1 hp) hl.2 hl'

theorem drops_filter (q : α → Bool) (l : List α) : Drops (fun a => q a = false) l (l.filter q) := by
  induction l with
  | nil => exact .nil
  | cons a l ih =>
    cases hq : q a with
    | true =>
      rw [List.filter_cons_of_pos hq]
      exact .keep a ih
    | false =>
      rw [List.filter_cons_of_neg (ne_true_of_eq_false hq)]
      exact .drop hq ih

end Interference
