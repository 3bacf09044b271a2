import Mathlib.Logic.Basic

/-!
# Runs of a deterministic transition system

A system is a step function `step : σ → α → σ`, and a run is a list of actions. What each step keeps
holds at the end of every run; the steps may be required to meet a condition on the state they are
taken in (`Meets`).
-/

namespace Transition

universe u v

variable {σ : Type u} {α : Type v}

def run (step : σ → α → σ) : σ → List α → σ
  | s, [] => s
  | s, a :: as => run step (step s a) as

def Meets (step : σ → α → σ) (ok : σ → α → Prop) : σ → List α → Prop
  | _, [] => True
  | s, a :: as => ok s a ∧ Meets step ok (step s a) as

variable {step : σ → α → σ} {ok : σ → α → Prop}

instance Meets.decidable [∀ s a, Decidable (ok s a)] :
    ∀ (s : σ) (as : List α), Decidable (Meets step ok s as)
  | _, [] => inferInstanceAs (Decidable True)
  | s, a :: as =>
    have := Meets.decidable (step s a) as
    inferInstanceAs (Decidable (ok s a ∧ Meets step ok (step s a) as))

variable {Inv : σ → Prop} (s : σ)

@[simp] theorem run_nil : run step s [] = s := rfl

@[simp] theorem run_cons (a : α) (as : List α) :
    run step s (a :: as) = run step (step s a) as := rfl

theorem run_append (as bs : List α) :
    run step s (as ++ bs) = run step (run step s as) bs := by
  induction as generalizing s with
  | nil => rfl
  | cons a as ih => exact ih (step s a)

@[simp] theorem meets_nil : Meets step ok s [] := trivial

@[simp] theorem meets_cons (a : α) (as : List α) :
    Meets step ok s (a :: as) ↔ ok s a ∧ Meets step ok (step s a) as := Iff.rfl

theorem meets_append (as bs : List α) :
    Meets step ok s (as ++ bs) ↔ Meets step ok s as ∧ Meets step ok (run step s as) bs := by
  induction as generalizing s with
  | nil => simp
  | cons a as ih => simp only [List.cons_append, meets_cons, run_cons, ih, and_assoc]

theorem Meets.and_mem {p : α → Prop} {s : σ} {as : List α} (h : Meets step ok s as)
    (hp : ∀ a ∈ as, p a) : Meets step (fun s a => ok s a ∧ p a) s as := by
  induction as generalizing s with
  | nil => trivial
  | cons a as ih =>
    obtain ⟨ha, has⟩ := List.forall_mem_cons.mp hp
    exact ⟨⟨h.1, ha⟩, ih h.2 has⟩

theorem meets_of_mem {p : α → Prop} {as : List α} (hp : ∀ a ∈ as, p a) :
    Meets step (fun _ a => p a) s as := by
  induction as generalizing s with
  | nil => trivial
  | cons a as ih =>
    obtain ⟨ha, has⟩ := List.forall_mem_cons.mp hp
    exact ⟨ha, ih (step s a) has⟩

theorem run_kept (hstep : ∀ s a, Inv s → Inv (step s a)) {s : σ} (hs : Inv s)
    (as : List α) : Inv (run step s as) := by
  induction as generalizing s with
  | nil => exact hs
  | cons a as ih => exact ih (hstep s a hs)

/-- **Invariance.** What each admitted step keeps, a whole run of admitted steps keeps. -/
theorem run_invariant
    (hstep : ∀ s a, Inv s → ok s a → Inv (step s a)) {s : σ} {as : List α}
    (hs : Inv s) (has : Meets step ok s as) : Inv (run step s as) := by
  induction as generalizing s with
  | nil => exact hs
  | cons a as ih => exact ih (hstep s a hs has.1) has.2

end Transition
