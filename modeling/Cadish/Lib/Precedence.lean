import Mathlib.Data.List.Sort

/-!
# Precedence

Rules are ordered by a relation that may leave ties, in which the first of the list goes first. The
rule that leads a list is the head after a stable sort (`head?_insertionSort`), and a search in the
sorted list finds the leader of the rules that apply (`find?_insertionSort`).
-/

universe u

namespace Precedence

open List

variable {α : Type u}

/-- The element that leads a list: those before it rank lower, and those behind it do not rank
higher. -/
def Leads (r : α → α → Prop) (l : List α) (a : α) : Prop :=
  ∃ xs ys, l = xs ++ a :: ys ∧ (∀ x ∈ xs, ¬ r x a) ∧ ∀ y ∈ ys, r a y

section

variable (r : α → α → Prop) [DecidableRel r]

def leader : List α → Option α
  | [] => none
  | a :: l =>
    match leader l with
    | none => some a
    | some b => if r a b then some a else some b

variable {r}

theorem leader_eq_none {l : List α} : leader r l = none ↔ l = [] := by
  cases l with
  | nil => simp [leader]
  | cons a l =>
    rw [leader]
    cases leader r l with
    | none => simp
    | some b => by_cases h : r a b <;> simp [h]

theorem head?_insertionSort (l : List α) : (l.insertionSort r).head? = leader r l := by
  induction l with
  | nil => rfl
  | cons a l ih =>
    rw [insertionSort_cons, leader, ← ih]
    cases l.insertionSort r with
    | nil => rfl
    | cons b sorted =>
      by_cases h : r a b
      · simp [h]
      · simp [h]

theorem leader_congr {s : α → α → Prop} [DecidableRel s] {l : List α}
    (h : ∀ a ∈ l, ∀ b ∈ l, r a b ↔ s a b) : leader r l = leader s l := by
  have hmap := map_insertionSort r s id l h
  rw [List.map_id, List.map_id] at hmap
  rw [← head?_insertionSort, ← head?_insertionSort, hmap]

end

theorem filter_append_filter {p : α → Bool} {l : List α} (h : l.Pairwise fun a b => p b = true → p a = true) :
    l.filter p ++ l.filter (fun a => !p a) = l := by
  induction l with
  | nil => rfl
  | cons a l ih =>
    obtain ⟨ha, hl⟩ := pairwise_cons.mp h
    by_cases hp : p a = true
    · rw [filter_cons_of_pos hp, filter_cons_of_neg (by simp [hp]), cons_append, ih hl]
    · have hnone : l.filter p = [] := filter_eq_nil_iff.mpr fun b hb hpb => hp (ha b hb hpb)
      have hall : l.filter (fun b => !p b) = l :=
        filter_eq_self.mpr fun b hb => by simpa using fun hpb => hp (ha b hb hpb)
      rw [filter_cons_of_neg hp, filter_cons_of_pos (by simp [hp]), hnone, hall, nil_append]

section

variable {r : α → α → Prop}

variable {a : α} {l : List α}

theorem Leads.mem (h : Leads r l a) : a ∈ l := by
  obtain ⟨xs, ys, rfl, -, -⟩ := h
  simp

theorem Leads.rel [Std.Total r] {b : α} (h : Leads r l a) (hb : b ∈ l) : r a b := by
  obtain ⟨xs, ys, rfl, hxs, hys⟩ := h
  have hrefl : r a a := (Std.Total.total a a).elim id id
  rcases mem_append.mp hb with hb | hb
  · exact (Std.Total.total a b).resolve_right (hxs b hb)
  · rcases mem_cons.mp hb with rfl | hb
    · exact hrefl
    · exact hys b hb

variable [DecidableRel r] [IsTrans α r]

theorem leads_of_leader [Std.Total r] (h : leader r l = some a) : Leads r l a := by
  induction l generalizing a with
  | nil => cases h
  | cons c l ih =>
    rw [leader] at h
    cases hl : leader r l with
    | none =>
      rw [hl] at h
      obtain rfl := Option.some.inj h
      rw [leader_eq_none] at hl
      exact ⟨[], [], by rw [hl]; rfl, by simp, by simp⟩
    | some b =>
      have hb := ih hl
      rw [hl] at h
      by_cases hcb : r c b
      · obtain rfl : c = a := by simpa [hcb] using h
        exact ⟨[], l, rfl, by simp, fun y hy => IsTrans.trans _ _ _ hcb (hb.rel hy)⟩
      · obtain rfl : b = a := by simpa [hcb] using h
        obtain ⟨xs, ys, rfl, hxs, hys⟩ := hb
        refine ⟨c :: xs, ys, rfl, ?_, hys⟩
        exact forall_mem_cons.mpr ⟨hcb, hxs⟩

theorem filter_orderedInsert (p : α → Bool) (hl : l.Pairwise r) (ha : p a) :
    (l.orderedInsert r a).filter p = (l.filter p).orderedInsert r a := by
  induction l with
  | nil => simp [ha]
  | cons b l ih =>
    obtain ⟨hb, hl⟩ := pairwise_cons.mp hl
    by_cases hab : r a b
    · rw [orderedInsert_cons_of_le r l hab, filter_cons_of_pos ha]
      -- everything behind `b` ranks lower than `a` too
      have hall : ∀ c ∈ (b :: l).filter p, r a c := by
        intro c hc
        rcases mem_cons.mp (mem_of_mem_filter hc) with rfl | hc
        · exact hab
        · exact IsTrans.trans _ _ _ hab (hb c hc)
      cases hfilter : (b :: l).filter p with
      | nil => rfl
      | cons c rest =>
        rw [hfilter] at hall
        rw [orderedInsert_cons_of_le r rest (hall c mem_cons_self)]
    · rw [orderedInsert_of_not_le r l hab]
      by_cases hpb : p b
      · rw [filter_cons_of_pos hpb, filter_cons_of_pos hpb, orderedInsert_of_not_le r _ hab, ih hl]
      · rw [filter_cons_of_neg hpb, filter_cons_of_neg hpb, ih hl]

variable [Std.Total r]

theorem filter_insertionSort (p : α → Bool) (l : List α) :
    (l.insertionSort r).filter p = (l.filter p).insertionSort r := by
  induction l with
  | nil => rfl
  | cons a l ih =>
    rw [insertionSort_cons]
    by_cases ha : p a
    · rw [filter_orderedInsert p (pairwise_insertionSort r l) ha, ih,
        filter_cons_of_pos ha, insertionSort_cons]
    · rw [filter_cons_of_neg ha, ← ih, orderedInsert_eq_take_drop, filter_append,
        filter_cons_of_neg ha, ← filter_append, takeWhile_append_dropWhile]

theorem find?_insertionSort (p : α → Bool) (l : List α) :
    (l.insertionSort r).find? p = leader r (l.filter p) := by
  rw [← head?_filter, filter_insertionSort, head?_insertionSort]

def pick (r : α → α → Prop) [DecidableRel r] : Option α → Option α → Option α
  | none, b => b
  | some a, none => some a
  | some a, some b => if r a b then some a else some b

theorem leader_append (l m : List α) : leader r (l ++ m) = pick r (leader r l) (leader r m) := by
  induction l with
  | nil => rfl
  | cons a l ih =>
    rw [cons_append, leader, ih, leader]
    cases leader r l with
    | none =>
      cases leader r m <;> rfl
    | some b =>
      cases leader r m with
      | none => by_cases hab : r a b <;> simp [pick, hab]
      | some c =>
        by_cases hab : r a b
        · by_cases hbc : r b c
          · simp [pick, hab, hbc, IsTrans.trans _ _ _ hab hbc]
          · simp [pick, hab, hbc]
        by_cases hbc : r b c
        · simp [pick, hab, hbc]
        · have hac : ¬ r a c := fun hac => hbc <| IsTrans.trans _ _ _
            ((Std.Total.total a b).resolve_left hab) hac
          simp [pick, hab, hbc, hac]

theorem leader_concat_of_rel {x : α} (ha : a ∈ l) (hax : r a x) : leader r (l ++ [x]) = leader r l := by
  rw [leader_append]
  cases hl : leader r l with
  | none =>
    rw [leader_eq_none.mp hl] at ha
    cases ha
  | some b =>
    have hbx := IsTrans.trans _ _ _ ((leads_of_leader hl).rel ha) hax
    simp [pick, leader, hbx]

end

end Precedence
