import Mathlib.Algebra.GroupWithZero.Nat
import Mathlib.Data.List.Nodup

/-!
# Linear probing

What hashes to a cell that is taken goes on to the next one, and around, until one is free. `place`
says which cells a list of hashes takes. **Cells that it does not end up in do not change it**
(`place_or`).
-/

namespace Probing

open List Option

variable {n : Nat} [NeZero n]

/-- The first cell from `h` on that is not taken, within so many. -/
def free (taken : Fin n → Bool) : Nat → Fin n → Option (Fin n)
  | 0, _ => none
  | fuel + 1, h => if taken h then free taken fuel (h + 1) else some h

def place (taken : Fin n → Bool) : List (Fin n) → Option (List (Fin n))
  | [] => some []
  | h :: hs => (free taken n h).bind fun c => (place (fun x => x = c || taken x) hs).map (c :: ·)

variable {taken other : Fin n → Bool} {fuel : Nat} {h c : Fin n} {hs cs : List (Fin n)}

theorem free_untaken (hc : free taken fuel h = some c) : taken c = false := by
  induction fuel generalizing h with
  | zero => cases hc
  | succ fuel ih =>
    rw [free] at hc
    split at hc
    · exact ih hc
    case isFalse hfree =>
      obtain rfl := some.inj hc
      exact Bool.eq_false_iff.mpr hfree

theorem free_or (hc : free taken fuel h = some c) (hother : other c = false) :
    free (fun x => other x || taken x) fuel h = some c := by
  induction fuel generalizing h with
  | zero => cases hc
  | succ fuel ih =>
    rw [free] at hc ⊢
    split at hc
    case isTrue htaken => rw [htaken, Bool.or_true, if_pos rfl, ih hc]
    case isFalse hfree =>
      obtain rfl := some.inj hc
      rw [hother, Bool.eq_false_iff.mpr hfree]
      rfl

theorem taken_of_free (hc : free taken fuel h = none) (i : Nat) (hi : i < fuel) :
    taken (Fin.ofNat n (h.val + i)) = true := by
  induction fuel generalizing h i with
  | zero => omega
  | succ fuel ih =>
    rw [free] at hc
    split at hc
    case isFalse => cases hc
    case isTrue htaken =>
      cases i with
      | zero => simpa using htaken
      | succ i =>
        have heq : Fin.ofNat n ((h + 1).val + i) = Fin.ofNat n (h.val + (i + 1)) := by
          ext
          have hone : (1 : Fin n).val = 1 % n := rfl
          simp only [Fin.val_ofNat, Fin.val_add, hone, Nat.mod_add_mod, Nat.add_mod_mod,
            Nat.add_right_comm h.val _ i, Nat.add_assoc]
        exact heq ▸ ih hc i (by omega)

theorem exists_free (hc : taken c = false) (h : Fin n) : ∃ c', free taken n h = some c' := by
  cases hfree : free taken n h with
  | some c' => exact ⟨c', rfl⟩
  | none =>
    have hwalk : taken c = true := by
      by_cases hle : h.val ≤ c.val
      · have := taken_of_free hfree (c.val - h.val) (by omega)
        rwa [show h.val + (c.val - h.val) = c.val by omega, Fin.ofNat_val_eq_self] at this
      · have := taken_of_free hfree (c.val + n - h.val) (by omega)
        rw [show h.val + (c.val + n - h.val) = c.val + n by omega] at this
        rwa [show Fin.ofNat n (c.val + n) = c by
          ext; rw [Fin.val_ofNat, Nat.add_mod_right, Nat.mod_eq_of_lt c.isLt]] at this
    rw [hc] at hwalk
    cases hwalk

theorem place_length (hcs : place taken hs = some cs) : cs.length = hs.length := by
  induction hs generalizing taken cs with
  | nil =>
    obtain rfl := some.inj hcs
    rfl
  | cons h hs ih =>
    obtain ⟨c, -, hcs⟩ := bind_eq_some_iff.mp hcs
    obtain ⟨cs', hcs', rfl⟩ := map_eq_some_iff.mp hcs
    rw [length_cons, length_cons, ih hcs']

theorem place_untaken (hcs : place taken hs = some cs) :
    (∀ c ∈ cs, taken c = false) ∧ cs.Nodup := by
  induction hs generalizing taken cs with
  | nil =>
    obtain rfl := some.inj hcs
    exact ⟨nofun, nodup_nil⟩
  | cons h hs ih =>
    obtain ⟨c, hc, hcs⟩ := bind_eq_some_iff.mp hcs
    obtain ⟨cs', hcs', rfl⟩ := map_eq_some_iff.mp hcs
    obtain ⟨hfree, hnodup⟩ := ih hcs'
    simp only [Bool.or_eq_false_iff, decide_eq_false_iff_not] at hfree
    exact ⟨forall_mem_cons.mpr ⟨free_untaken hc, fun x hx => (hfree x hx).2⟩,
      nodup_cons.mpr ⟨fun hmem => (hfree c hmem).1 rfl, hnodup⟩⟩

theorem place_or (hcs : place taken hs = some cs) (hother : ∀ c ∈ cs, other c = false) :
    place (fun x => other x || taken x) hs = some cs := by
  induction hs generalizing taken cs with
  | nil => exact hcs
  | cons h hs ih =>
    obtain ⟨c, hc, hcs⟩ := bind_eq_some_iff.mp hcs
    obtain ⟨cs', hcs', rfl⟩ := map_eq_some_iff.mp hcs
    obtain ⟨hothc, hother⟩ := forall_mem_cons.mp hother
    rw [place, free_or hc hothc, bind_some]
    have hrest := ih hcs' hother
    simp only [Bool.or_left_comm] at hrest ⊢
    rw [hrest]
    rfl

theorem exists_place {ts : List (Fin n)} (hts : ∀ c, taken c = true → c ∈ ts)
    (hroom : ts.length + hs.length ≤ n) : ∃ cs, place taken hs = some cs := by
  induction hs generalizing taken ts with
  | nil => exact ⟨[], rfl⟩
  | cons h hs ih =>
    rw [length_cons] at hroom
    obtain ⟨c, hc⟩ : ∃ c, c ∉ ts := by
      by_contra hall
      push Not at hall
      have := (nodup_finRange n).length_le_of_subset fun c _ => hall c
      rw [length_finRange] at this
      omega
    obtain ⟨c', hc'⟩ := exists_free (Bool.eq_false_iff.mpr fun htaken => hc (hts c htaken)) h
    have hts' : ∀ c, (decide (c = c') || taken c) = true → c ∈ c' :: ts := by
      simp only [Bool.or_eq_true, decide_eq_true_eq, mem_cons]
      exact fun c hc => hc.imp_right (hts c)
    obtain ⟨cs, hcs⟩ := ih hts' (by rw [length_cons]; omega)
    exact ⟨c' :: cs, by rw [place, hc', bind_some, hcs]; rfl⟩

end Probing
