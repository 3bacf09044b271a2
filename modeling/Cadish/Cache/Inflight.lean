import Cadish.Cache.RamBooks

/-!
# The budget of the bodies in flight

The writers of the RAM tier buffer bodies at the same time, on one budget. A step of the system is
one atomic change of the budget, with what its writer does around it. **The budget is never
overdrawn, and nothing is left charged when all writers are done** (`inflight_books`).
-/

namespace Cadish

open Option RamTier FinMap

structure Inflight where
  tier : RamTier
  writers : FinMap Nat RamWriter := ∅

namespace Inflight

inductive Step where
  | begin (id : Nat) (m : ObjectMeta)
  | write (id : Nat) (p : Str)
  | giveUp (id : Nat)
  | install (id : Nat)
  | finish (id : Nat)
  | other (op : RamTier.Op)

def step (s : Inflight) : Step → Inflight
  | .begin id m =>
    match s.writers.lookup id with
    | some _ => s
    | none => { s with writers := s.writers.insert id (writer m) }
  | .write id p =>
    match s.writers.lookup id with
    | none => s
    | some w => ⟨(s.tier.write w p).1, s.writers.insert id (s.tier.write w p).2⟩
  | .giveUp id =>
    match s.writers.lookup id with
    | none => s
    | some w => ⟨(s.tier.dropBuffer w).1, s.writers.insert id (s.tier.dropBuffer w).2⟩
  | .install id =>
    match s.writers.lookup id with
    | none => s
    | some w =>
      ⟨if w.overflow then s.tier else (s.tier.install w.objectMeta w.buf).1,
        s.writers.insert id { w with buf := [] }⟩
  | .finish id =>
    match s.writers.lookup id with
    | none => s
    | some w => ⟨s.tier.release w.reserved, s.writers.erase id⟩
  | .other op => { s with tier := s.tier.apply op }

theorem commit_eq {s : Inflight} {id : Nat} {w : RamWriter} (h : s.writers.lookup id = some w) :
    (s.tier.commit w).1 = ((s.step (.install id)).step (.finish id)).tier := by
  simp only [step, h, AList.lookup_insert, commit]
  split <;> rfl

/-- What a writer holds covers its buffer, which is no longer than one object may be. -/
structure Covers (cap : Int) (w : RamWriter) : Prop where
  reserved : (w.buf.length : Int) ≤ w.reserved
  cap : 0 < cap → (w.buf.length : Int) ≤ cap

structure Books (cap budget : Int) (s : Inflight) : Prop where
  bounds : s.tier.maxObjectBytes = cap ∧ s.tier.inflightBudget = budget
  charge : s.tier.inflightBytes = s.writers.total RamWriter.reserved
  within : s.tier.inflightBytes ≤ budget
  covers : ∀ id, ∀ w ∈ s.writers.lookup id, Covers cap w

variable {cap budget : Int} {s : Inflight} {id : Nat} {w w' : RamWriter} {t : RamTier}

theorem Covers.empty (n : Int) (h : 0 ≤ n) (w : RamWriter) :
    Covers cap { w with buf := [], reserved := n } :=
  ⟨h, fun hcap => hcap.le⟩

theorem Covers.nonneg (h : Covers cap w) : 0 ≤ w.reserved :=
  Int.le_trans (Int.natCast_nonneg _) h.reserved

theorem Books.update (h : Books cap budget s) (hw : s.writers.lookup id = some w)
    (ht : t.maxObjectBytes = cap ∧ t.inflightBudget = budget)
    (hcharge : t.inflightBytes = s.tier.inflightBytes - w.reserved + w'.reserved)
    (hwithin : t.inflightBytes ≤ budget) (hw' : Covers cap w') :
    Books cap budget ⟨t, s.writers.insert id w'⟩ := by
  refine ⟨ht, ?_, hwithin, fun id' w₂ hlookup => ?_⟩
  · rw [← insert_erase, total_insert_new _ _ (AList.lookup_erase id s.writers),
      total_erase _ hw, hcharge, h.charge]
  · rw [lookup_insert_ite] at hlookup
    split at hlookup
    · obtain rfl := some.inj hlookup
      exact hw'
    · exact h.covers id' w₂ hlookup

theorem release_eq (hn : 0 ≤ w.reserved) :
    (t.release w.reserved).inflightBytes = t.inflightBytes - w.reserved ∧
      (t.release w.reserved).maxObjectBytes = t.maxObjectBytes ∧
      (t.release w.reserved).inflightBudget = t.inflightBudget := by
  rw [release]
  split
  · exact ⟨rfl, rfl, rfl⟩
  · refine ⟨?_, rfl, rfl⟩
    omega

theorem Books.giveUp (h : Books cap budget s) (hw : s.writers.lookup id = some w) :
    Books cap budget ⟨(s.tier.dropBuffer w).1, s.writers.insert id (s.tier.dropBuffer w).2⟩ := by
  have hnonneg := (h.covers id w hw).nonneg
  obtain ⟨hbytes, hcap, hbudget⟩ := @release_eq w s.tier hnonneg
  refine h.update hw ⟨hcap.trans h.bounds.1, hbudget.trans h.bounds.2⟩ ?_ ?_
    (Covers.empty 0 (Int.le_refl 0) { w with overflow := true })
  · exact hbytes.trans (Int.add_zero _).symm
  · have hwithin := h.within
    change (s.tier.release w.reserved).inflightBytes ≤ budget
    omega

theorem Books.write (hbudget : 0 < budget) (h : Books cap budget s)
    (hw : s.writers.lookup id = some w) (p : Str) :
    Books cap budget ⟨(s.tier.write w p).1, s.writers.insert id (s.tier.write w p).2⟩ := by
  have hcovers := h.covers id w hw
  rw [RamTier.write]
  split
  · exact h.update hw h.bounds (by dsimp only; omega) h.within hcovers
  dsimp only
  split
  · exact h.giveUp hw
  case isFalse hcap =>
    rw [h.bounds.1] at hcap
    have hfits : 0 < cap → ((w.buf ++ p).length : Int) ≤ cap := fun hpos => by
      by_contra hlong
      exact hcap ⟨hpos, by omega⟩
    split
    case isTrue hgrow =>
      rw [reserve, h.bounds.2, if_neg (by omega)]
      split
      case h_1 => exact h.giveUp hw
      case h_2 t ht =>
        obtain ⟨hroom, ht⟩ := ite_none_left_eq_some.mp ht
        obtain rfl := some.inj ht
        exact h.update hw ⟨h.bounds.1, rfl⟩ (by dsimp only; omega) (by dsimp only; omega)
          ⟨by dsimp only; omega, hfits⟩
    case isFalse hgrow =>
      exact h.update hw h.bounds (by dsimp only; omega) h.within ⟨by dsimp only; omega, hfits⟩

theorem bounds_apply (op : RamTier.Op) :
    (t.apply op).inflightBytes = t.inflightBytes ∧
      (t.apply op).maxObjectBytes = t.maxObjectBytes ∧
      (t.apply op).inflightBudget = t.inflightBudget := by
  cases op <;> exact ⟨rfl, rfl, rfl⟩

theorem books_step (hbudget : 0 < budget) (h : Books cap budget s) (a : Step) :
    Books cap budget (s.step a) := by
  cases a with
  | other op =>
    obtain ⟨hbytes, hcap, hbud⟩ := @bounds_apply s.tier op
    exact ⟨⟨hcap.trans h.bounds.1, hbud.trans h.bounds.2⟩, hbytes.trans h.charge,
      hbytes.trans_le h.within, h.covers⟩
  | begin id m =>
    rw [step]
    split
    · exact h
    case h_2 hnone =>
      refine ⟨h.bounds, ?_, h.within, fun id' w hw => ?_⟩
      · exact h.charge.trans ((total_insert_new _ _ hnone).trans (Int.add_zero _)).symm
      · rw [lookup_insert_ite] at hw
        split at hw
        · obtain rfl := some.inj hw
          exact Covers.empty 0 (Int.le_refl 0) (writer m)
        · exact h.covers id' w hw
  | write id p =>
    rw [step]
    split
    · exact h
    case h_2 w hw => exact h.write hbudget hw p
  | giveUp id =>
    rw [step]
    split
    · exact h
    case h_2 w hw => exact h.giveUp hw
  | install id =>
    rw [step]
    split
    · exact h
    case h_2 w hw =>
      have hcovers := @Covers.empty cap w.reserved (h.covers id w hw).nonneg w
      split
      · exact h.update hw h.bounds (by dsimp only; omega) h.within hcovers
      · exact h.update hw h.bounds (by rw [install]; dsimp only [updateShard]; omega)
          h.within hcovers
  | finish id =>
    rw [step]
    split
    · exact h
    case h_2 w hw =>
      obtain ⟨hbytes, hcap, hbud⟩ := @release_eq w s.tier (h.covers id w hw).nonneg
      refine ⟨⟨hcap.trans h.bounds.1, hbud.trans h.bounds.2⟩, ?_, ?_, fun id' w' hw' => ?_⟩
      · exact hbytes.trans (h.charge ▸ (total_erase _ hw).symm)
      · have hnonneg := (h.covers id w hw).nonneg
        have hwithin := h.within
        dsimp only
        omega
      · exact h.covers id' w' (mem_lookup_erase hw')

/-- **The budget of the bodies in flight**, after any interleaving of writers: the charge is what the
writers hold, which covers their buffers and stays within the budget; nothing is charged when all
are done; and a writer that has given up installs nothing. -/
theorem inflight_books {maxBytes cap budget : Int} (hbudget : 0 < budget) (as : List Step) :
    let s := Transition.run step { tier := .new maxBytes cap budget } as
    s.tier.inflightBytes = s.writers.total RamWriter.reserved ∧
      (∀ id, ∀ w ∈ s.writers.lookup id, (w.buf.length : Int) ≤ w.reserved ∧
        (0 < cap → (w.buf.length : Int) ≤ cap)) ∧
      s.tier.inflightBytes ≤ budget ∧
      (s.writers.keys = [] → s.tier.inflightBytes = 0) ∧
      ∀ id, ∀ w ∈ s.writers.lookup id, w.overflow = true →
        (s.step (.install id)).tier = s.tier ∧ (s.tier.commit w).2 = false := by
  have hnew : Books cap budget { tier := .new maxBytes cap budget } :=
    ⟨⟨rfl, rfl⟩, rfl, hbudget.le, fun _ _ hw => absurd hw (not_mem_none _)⟩
  have hstep : ∀ s a, Books cap budget s → Books cap budget (step s a) :=
    fun _ a hs => books_step hbudget hs a
  have h := Transition.run_kept hstep hnew as
  intro s
  refine ⟨h.charge, fun id w hw => ⟨(h.covers id w hw).reserved, (h.covers id w hw).cap⟩, h.within,
    fun hdone => ?_, fun id w hw hover => ⟨?_, ?_⟩⟩
  · rw [h.charge, total_eq_sum_keys, hdone]
    rfl
  · rw [step, mem_def.mp hw]
    exact if_pos hover
  · rw [commit, if_pos hover]

theorem inflight_books_two :
    (Transition.run step { tier := .new 100 0 3 } [.begin 0 { key := [0] }, .begin 1 { key := [1] },
      .write 0 [1, 2], .write 1 [3, 4], .install 0, .finish 0, .finish 1]).tier.inflightBytes = 0 :=
  (inflight_books (by decide) _).2.2.2.1 (by decide)

end Inflight

end Cadish
