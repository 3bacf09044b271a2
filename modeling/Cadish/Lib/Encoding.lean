import Mathlib.Data.List.Sort
import Mathlib.Data.Multiset.Basic

/-!
# Encodings that can be read back

A list is read back if no word of the code starts another (`Headed`), or if a separator stands
between words without it. A multimap is written as its pairs in order, alike for the same pairs
(`sortedPairs_eq_iff`).
-/

namespace Encoding

open List

universe u v

variable {α : Type u} {β : Type v}

/-! ## Word after word -/

/-- The first word of a text can be told, and is not empty. -/
structure Headed (code : α → List β) : Prop where
  ne_nil : ∀ a, code a ≠ []
  head : ∀ a b x y, code a ++ x = code b ++ y → a = b ∧ x = y

theorem Headed.flatMap_injective {code : α → List β} (h : Headed code) :
    Function.Injective fun l : List α => l.flatMap code := by
  intro l l' heq
  induction l generalizing l' with
  | nil =>
    cases l' with
    | nil => rfl
    | cons b l' =>
      exact absurd (append_eq_nil_iff.mp heq.symm).1 (h.ne_nil b)
  | cons a l ih =>
    cases l' with
    | nil =>
      exact absurd (append_eq_nil_iff.mp heq).1 (h.ne_nil a)
    | cons b l' =>
      obtain ⟨rfl, htail⟩ := h.head a b _ _ heq
      rw [ih htail]

/-! ## Words with a separator -/

theorem append_cons_inj {sep : α} {x y s t : List α} (hx : sep ∉ x) (hy : sep ∉ y)
    (h : x ++ sep :: s = y ++ sep :: t) : x = y ∧ s = t := by
  induction x generalizing y with
  | nil =>
    cases y with
    | nil => exact ⟨rfl, (cons.inj h).2⟩
    | cons b y =>
      obtain ⟨rfl, -⟩ := cons.inj h
      exact absurd mem_cons_self hy
  | cons a x ih =>
    cases y with
    | nil =>
      obtain ⟨rfl, -⟩ := cons.inj h
      exact absurd mem_cons_self hx
    | cons b y =>
      obtain ⟨rfl, htail⟩ := cons.inj h
      obtain ⟨rfl, rfl⟩ := ih (fun hm => hx (mem_cons_of_mem _ hm))
        (fun hm => hy (mem_cons_of_mem _ hm)) htail
      exact ⟨rfl, rfl⟩

theorem join_inj {sep : α} {xs ys : List (List α)}
    (h : List.Forall₂ (fun x y => x = y ∨ (sep ∉ x ∧ sep ∉ y)) xs ys)
    (heq : [sep].intercalate xs = [sep].intercalate ys) : xs = ys := by
  induction h with
  | nil => rfl
  | @cons x y xs ys hxy htail ih =>
    cases htail with
    | nil =>
      rw [intercalate_singleton, intercalate_singleton] at heq
      rw [heq]
    | @cons x' y' xs ys hxy' htail =>
      obtain ⟨rfl, hrest⟩ : x = y ∧ _ = _ := by
        obtain rfl | ⟨hx, hy⟩ := hxy
        · exact ⟨rfl, (cons.inj (append_cancel_left heq)).2⟩
        · exact append_cons_inj hx hy heq
      rw [ih hrest]

/-! ## A multimap as its pairs -/

section Pairs

variable (rk : α → α → Prop) (rv : β → β → Prop)

/-- The pairs of a multimap, given by its keys and the values of each. -/
def pairs (ks : List α) (f : α → List β) : List (α × β) := ks.flatMap fun k => (f k).map (k, ·)

def PairLe (a b : α × β) : Prop := (a.1 ≠ b.1 ∧ rk a.1 b.1) ∨ (a.1 = b.1 ∧ rv a.2 b.2)

variable {rk rv} in
theorem PairLe.antisymm [Std.Antisymm rk] [Std.Antisymm rv] {a b : α × β} (hab : PairLe rk rv a b)
    (hba : PairLe rk rv b a) : a = b := by
  obtain ⟨k, v⟩ := a
  obtain ⟨k', v'⟩ := b
  obtain ⟨hne, hk⟩ | ⟨heq, hv⟩ := hab
  · obtain ⟨-, hk'⟩ | ⟨heq, -⟩ := hba
    · exact absurd (Std.Antisymm.antisymm k k' hk hk') hne
    · exact absurd heq.symm hne
  · obtain ⟨hne, -⟩ | ⟨-, hv'⟩ := hba
    · exact absurd heq.symm hne
    · exact Prod.ext heq (Std.Antisymm.antisymm v v' hv hv')

variable [DecidableRel rk] [DecidableRel rv]

def sortedPairs (ks : List α) (f : α → List β) : List (α × β) :=
  pairs (ks.insertionSort rk) fun k => (f k).insertionSort rv

theorem sortedPairs_perm (ks : List α) (f : α → List β) :
    (sortedPairs rk rv ks f).Perm (pairs ks f) :=
  (perm_insertionSort rk ks).flatMap fun k _ => (perm_insertionSort rv (f k)).map _

variable [Std.Total rk] [IsTrans α rk] [Std.Total rv] [IsTrans β rv]

theorem sortedPairs_pairwise {ks : List α} (hks : ks.Nodup) (f : α → List β) :
    (sortedPairs rk rv ks f).Pairwise (PairLe rk rv) := by
  refine pairwise_flatMap.mpr ⟨fun k _ => ?_, ?_⟩
  · refine pairwise_map.mpr ((pairwise_insertionSort rv (f k)).imp fun hle => ?_)
    exact .inr ⟨rfl, hle⟩
  · have hnodup : (ks.insertionSort rk).Nodup := (perm_insertionSort rk ks).nodup_iff.mpr hks
    refine (hnodup.and (pairwise_insertionSort rk ks)).imp fun hne x hx y hy => ?_
    obtain ⟨v, -, rfl⟩ := List.mem_map.mp hx
    obtain ⟨w, -, rfl⟩ := List.mem_map.mp hy
    exact .inl hne

theorem sortedPairs_eq_iff [Std.Antisymm rk] [Std.Antisymm rv] {ks ks' : List α} (hks : ks.Nodup)
    (hks' : ks'.Nodup) (f f' : α → List β) :
    sortedPairs rk rv ks f = sortedPairs rk rv ks' f' ↔
      (pairs ks f : Multiset (α × β)) = pairs ks' f' := by
  constructor
  · intro heq
    have hperm := (sortedPairs_perm rk rv ks f).symm
    rw [heq] at hperm
    exact Multiset.coe_eq_coe.mpr (hperm.trans (sortedPairs_perm rk rv ks' f'))
  · intro heq
    have hperm : (sortedPairs rk rv ks f).Perm (sortedPairs rk rv ks' f') :=
      ((sortedPairs_perm rk rv ks f).trans (Multiset.coe_eq_coe.mp heq)).trans
        (sortedPairs_perm rk rv ks' f').symm
    exact hperm.eq_of_pairwise (fun a b _ _ hab hba => hab.antisymm hba)
      (sortedPairs_pairwise rk rv hks f) (sortedPairs_pairwise rk rv hks' f')

end Pairs

end Encoding
