import Mathlib.Data.List.Basic

/-!
# Loops with lanes

A *lane* of a loop is a part of the state with the items that work on it: what they do to it depends
on it alone, and every other item leaves it. **Two loops whose lanes have the same items end alike
in that part** (`Lane.part_eq`).
-/

universe u v w

variable {σ : Type u} {τ : Type v} {α : Type w}

/-- The items of `mine` work on a part of the state, and no other item touches it. -/
structure Lane (step : σ → α → Option σ) (part : σ → τ) (mine : α → Bool) : Prop where
  own : ∀ {s t a s' t'}, mine a = true → part s = part t → step s a = some s' →
    step t a = some t' → part s' = part t'
  other : ∀ {s a s'}, mine a = false → step s a = some s' → part s' = part s

namespace Lane

open List Option

variable {step : σ → α → Option σ} {part : σ → τ} {mine : α → Bool}

theorem of_map
    (hown : ∀ {s t a}, mine a = true → part s = part t → (step s a).map part = (step t a).map part)
    (hother : ∀ {s a s'}, mine a = false → step s a = some s' → part s' = part s) :
    Lane step part mine where
  own := by
    intro s t a s' t' ha hpart hs ht
    have hmap := hown ha hpart
    rw [hs, ht] at hmap
    exact some.inj hmap
  other := hother

theorem part_kept (h : Lane step part mine) {as : List α} {s s' : σ} (has : as.filter mine = [])
    (hs : as.foldlM step s = some s') : part s' = part s := by
  induction as generalizing s with
  | nil =>
    obtain rfl : s = s' := some.inj hs
    rfl
  | cons a as ih =>
    obtain ⟨t, hstep, hrest⟩ := bind_eq_some_iff.mp hs
    have ha : mine a = false := by simpa using filter_eq_nil_iff.mp has a mem_cons_self
    rw [filter_cons_of_neg (by rw [ha]; exact Bool.false_ne_true)] at has
    exact (ih has hrest).trans (h.other ha hstep)

theorem split_first (h : Lane step part mine) {bs as : List α} {a : α} {s s' : σ}
    (hbs : bs.filter mine = a :: as) (hs : bs.foldlM step s = some s') :
    ∃ (t u : σ) (rest : List α), part t = part s ∧ step t a = some u ∧ rest.filter mine = as ∧
      rest.foldlM step u = some s' := by
  induction bs generalizing s with
  | nil => cases hbs
  | cons b bs ih =>
    obtain ⟨t, hstep, hrest⟩ := bind_eq_some_iff.mp hs
    cases hb : mine b with
    | true =>
      rw [filter_cons_of_pos hb] at hbs
      obtain ⟨rfl, hlane⟩ := cons.inj hbs
      exact ⟨s, t, bs, rfl, hstep, hlane, hrest⟩
    | false =>
      rw [filter_cons_of_neg (by rw [hb]; exact Bool.false_ne_true)] at hbs
      obtain ⟨t', u, rest, hpart, hstep', hrest'⟩ := ih hbs hrest
      exact ⟨t', u, rest, hpart.trans (h.other hb hstep), hstep', hrest'⟩

theorem part_eq (h : Lane step part mine) {as bs : List α} {s t s' t' : σ}
    (hstart : part s = part t) (hitems : as.filter mine = bs.filter mine)
    (hs : as.foldlM step s = some s') (ht : bs.foldlM step t = some t') : part s' = part t' := by
  induction hlane : as.filter mine generalizing as bs s t with
  | nil => rw [h.part_kept hlane hs, h.part_kept (hitems ▸ hlane) ht, hstart]
  | cons a lane ih =>
    have ha : mine a = true := of_mem_filter (hlane ▸ mem_cons_self)
    obtain ⟨s₁, s₂, as', hs₁, hstep, has', hrun⟩ := h.split_first hlane hs
    obtain ⟨t₁, t₂, bs', ht₁, hstep', hbs', hrun'⟩ := h.split_first (hitems ▸ hlane) ht
    have hpart := h.own ha (hs₁.trans (hstart.trans ht₁.symm)) hstep hstep'
    exact ih hpart (has'.trans hbs'.symm) hrun hrun' has'

end Lane
