import Mathlib.Algebra.BigOperators.Group.List.Basic
import Mathlib.Algebra.Ring.Int.Defs
import Cadish.Lib.FinMap

/-!
# A map with a list and a counter

`Ledger` says that a map, a list and a counter agree: **the list holds exactly the keys of the map,
each once, and the counter is the sum of the weights.** One lemma per change says how the three
change together.
-/

universe u v

namespace FinMap

open List Option

variable {κ : Type u} {ν : Type v}

variable {k : κ} {m : FinMap κ ν} {v : ν} {w : ν → Int}

def total (w : ν → Int) (m : FinMap κ ν) : Int := (m.entries.map fun e => w e.2).sum

theorem total_empty (w : ν → Int) : total w (∅ : FinMap κ ν) = 0 := rfl

variable [DecidableEq κ]

theorem entries_perm_cons_erase (h : m.lookup k = some v) :
    m.entries.Perm (⟨k, v⟩ :: (m.erase k).entries) := by
  have hmem : k ∈ m.entries.keys := AList.lookup_isSome.mp (isSome_of_mem h)
  obtain ⟨v', l₁, l₂, -, hm, herase⟩ := exists_of_kerase hmem
  have hv : v' = v := by
    have hentry : ⟨k, v'⟩ ∈ m.entries := hm ▸ mem_append_right l₁ mem_cons_self
    exact some.inj ((AList.mem_lookup_iff.mpr hentry).symm.trans h)
  rw [hv] at hm
  change m.entries.Perm (⟨k, v⟩ :: kerase k m.entries)
  rw [herase]
  nth_rewrite 1 [hm]
  exact perm_middle

theorem keys_perm_cons_erase (h : m.lookup k = some v) : m.keys.Perm (k :: (m.erase k).keys) :=
  (entries_perm_cons_erase h).map Sigma.fst

theorem total_erase (w : ν → Int) (h : m.lookup k = some v) :
    total w (m.erase k) = total w m - w v := by
  have hsum := ((entries_perm_cons_erase h).map fun e => w e.2).sum_eq
  simp only [map_cons, sum_cons] at hsum
  rw [total, total]
  omega

theorem total_insert_new (w : ν → Int) (v : ν) (h : m.lookup k = none) :
    total w (m.insert k v) = total w m + w v := by
  have herase : (m.insert k v).erase k = m := (erase_insert m k v).trans (erase_of_lookup_eq_none h)
  have hsum := total_erase w (AList.lookup_insert (s := m) (a := k) (b := v))
  rw [herase] at hsum
  omega

theorem total_eq_sum_keys (w : ν → Int) (m : FinMap κ ν) :
    total w m = (m.keys.map fun k => (m.lookup k).elim 0 w).sum := by
  rw [AList.keys, keys, List.map_map]
  refine congrArg sum (map_congr_left fun e he => ?_)
  rw [Function.comp_apply, AList.mem_lookup_iff.mpr he]
  rfl

theorem total_insert (w : ν → Int) (h : m.lookup k = some v) (v' : ν) :
    total w (m.insert k v') = total w m - w v + w v' := by
  rw [← insert_erase, total_insert_new w v' (AList.lookup_erase k m), total_erase w h]

theorem total_insert_same {v' : ν} (h : m.lookup k = some v) (hw : w v' = w v) :
    total w (m.insert k v') = total w m := by
  rw [total_insert w h]
  omega

theorem total_congr {w' : ν → Int} (h : ∀ k v, m.lookup k = some v → w v = w' v) :
    total w m = total w' m :=
  congrArg sum (map_congr_left fun e he => h e.1 e.2 (AList.mem_lookup_iff.mpr he))

omit [DecidableEq κ]

theorem total_add (w w' : ν → Int) (m : FinMap κ ν) :
    total (fun v => w v + w' v) m = total w m + total w' m :=
  sum_map_add

theorem total_zero (m : FinMap κ ν) : total (fun _ => 0) m = 0 := by
  simp [total]

theorem total_mono {w' : ν → Int} (h : ∀ v, w v ≤ w' v) (m : FinMap κ ν) : total w m ≤ total w' m := by
  rw [total, total]
  induction m.entries with
  | nil => exact Int.le_refl 0
  | cons e l ih =>
    exact Int.add_le_add (h e.2) ih

end FinMap

/-! ## The ledger -/

variable {κ : Type u} {ν : Type v}

structure Ledger (w : ν → Int) (order : List κ) (items : FinMap κ ν) (sum : Int) : Prop where
  order : order.Perm items.keys
  sum : sum = items.total w

namespace Ledger

open List Option

variable {w : ν → Int} {order : List κ} {items : FinMap κ ν} {sum : Int}

variable {k : κ}

theorem empty (w : ν → Int) : Ledger w ([] : List κ) (∅ : FinMap κ ν) 0 := ⟨.refl _, rfl⟩

theorem nodup (h : Ledger w order items sum) : order.Nodup :=
  h.order.nodup_iff.mpr items.keys_nodup

theorem mem_iff (h : Ledger w order items sum) : k ∈ order ↔ k ∈ items :=
  h.order.mem_iff

theorem reorder (h : Ledger w order items sum) {order' : List κ} (hperm : order'.Perm order) :
    Ledger w order' items sum :=
  ⟨hperm.trans h.order, h.sum⟩

theorem sum_of_nil (h : Ledger w ([] : List κ) items sum) : sum = 0 := by
  have hkeys : items.entries.map Sigma.fst = [] := nil_perm.mp h.order
  rw [h.sum, FinMap.total, map_eq_nil_iff.mp hkeys]
  rfl

variable [DecidableEq κ]

theorem lookup_of_mem (h : Ledger w order items sum) (hk : k ∈ order) : ∃ v, items.lookup k = some v :=
  isSome_iff_exists.mp (AList.lookup_isSome.mpr (h.mem_iff.mp hk))

theorem push (h : Ledger w order items sum) (v : ν) (hk : items.lookup k = none) :
    Ledger w (k :: order) (items.insert k v) (sum + w v) where
  order := by
    have hkeys := FinMap.keys_perm_cons_erase (AList.lookup_insert (s := items) (a := k) (b := v))
    rw [FinMap.erase_insert, FinMap.erase_of_lookup_eq_none hk] at hkeys
    exact (h.order.cons k).trans hkeys.symm
  sum := by rw [FinMap.total_insert_new w v hk, h.sum]

theorem exchange (h : Ledger w order items sum) {v v' : ν} (hk : items.lookup k = some v)
    (hw : w v' = w v) : Ledger w order (items.insert k v') sum where
  order := by
    have hkeys := FinMap.keys_perm_cons_erase (AList.lookup_insert (s := items) (a := k) (b := v'))
    rw [FinMap.erase_insert] at hkeys
    exact h.order.trans ((FinMap.keys_perm_cons_erase hk).trans hkeys.symm)
  sum := by rw [FinMap.total_insert_same hk hw, h.sum]

variable [BEq κ] [LawfulBEq κ]

theorem erase (h : Ledger w order items sum) {v : ν} (hk : items.lookup k = some v) :
    Ledger w (order.erase k) (items.erase k) (sum - w v) where
  order := by
    have hmem : k ∈ order := h.mem_iff.mpr (AList.lookup_isSome.mp (isSome_of_mem hk))
    have hkeys := h.order.trans (FinMap.keys_perm_cons_erase hk)
    exact ((perm_cons_erase hmem).symm.trans hkeys).cons_inv
  sum := by rw [FinMap.total_erase w hk, h.sum]

theorem getLast (h : Ledger w order items sum) (hk : order.getLast? = some k) :
    (∃ v, items.lookup k = some v) ∧ order.erase k = order.dropLast := by
  have hback : order.dropLast ++ [k] = order := dropLast_append_getLast? k hk
  have hnot : k ∉ order.dropLast := by
    have hnodup := h.nodup
    rw [← hback] at hnodup
    exact fun hm => (nodup_append.mp hnodup).2.2 k hm k (mem_singleton_self k) rfl
  refine ⟨h.lookup_of_mem (mem_of_getLast? hk), ?_⟩
  nth_rewrite 1 [← hback]
  rw [erase_append_right _ hnot, erase_cons_head, append_nil]

end Ledger
