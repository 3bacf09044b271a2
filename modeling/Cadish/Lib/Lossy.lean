import Mathlib.Data.Option.Basic

/-!
# Lossy maps

A cache is a partial map from which any binding may disappear. An operation leaves nothing new
(`Forgets`), or one new binding (`Puts`). A bound on what is held under a key (`Only`) survives
every forgetting.
-/

namespace Lossy

universe u v

variable {κ : Type u} {ν : Type v} {c c' c'' : κ → Option ν} {k k' : κ} {x y : ν}

/-- Afterwards the map holds nothing new. -/
def Forgets (c c' : κ → Option ν) : Prop := ∀ k, ∀ x ∈ c' k, x ∈ c k

structure Puts (k : κ) (x : ν) (c c' : κ → Option ν) : Prop where
  self : c' k = some x
  other : ∀ k', k' ≠ k → ∀ y ∈ c' k', y ∈ c k'

def Only (c : κ → Option ν) (k : κ) (x : ν) : Prop := ∀ y ∈ c k, y = x

namespace Forgets

theorem refl (c : κ → Option ν) : Forgets c c := fun _ _ h => h

theorem trans (h : Forgets c c') (h' : Forgets c' c'') : Forgets c c'' :=
  fun k x hx => h k x (h' k x hx)

theorem ne_none (h : Forgets c c') (hk : c' k ≠ none) : c k ≠ none := by
  obtain ⟨x, hx⟩ := Option.ne_none_iff_exists'.mp hk
  exact Option.ne_none_iff_exists'.mpr ⟨x, h k x hx⟩

end Forgets

namespace Puts

theorem of_forgets (h : Forgets c c') (h' : Puts k x c' c'') : Puts k x c c'' :=
  ⟨h'.self, fun k' hk y hy => h k' y (h'.other k' hk y hy)⟩

theorem only_self (h : Puts k x c c') : Only c' k x := fun y hy => by
  rw [h.self] at hy
  exact (Option.mem_some_iff.mp hy).symm

end Puts

theorem Only.of_none (h : c k = none) : Only c k x := fun y hy => by
  rw [h] at hy
  exact absurd hy (Option.not_mem_none y)

end Lossy
