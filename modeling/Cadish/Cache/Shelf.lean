import Mathlib.Algebra.Order.BigOperators.Group.List
import Mathlib.Algebra.Ring.Nat
import Cadish.Cache.Meta
import Cadish.Lib.Ledger

/-!
# The books of a tier

A shard of either tier keeps a map, a list of its keys, a counter and a copy of the counter. When
they agree in every shard (`Shelf.Ok`), `Bytes` is the size of what is resident, within the budget,
and `Len` counts every resident key once (`Books.of_shelves`).
-/

namespace Cadish

open List

/-! ## Budgets -/

theorem shardCount_pos (maxBytes : Int) : 0 < shardCount maxBytes := by
  rw [shardCount]
  split
  · exact Nat.one_pos
  · exact Nat.lt_min.mpr ⟨Nat.lt_of_lt_of_le Nat.one_pos (Nat.le_max_right _ _), by decide⟩

theorem shardIndex_lt (key : Str) {n : Nat} (h : 0 < n) : shardIndex key n < n := Nat.mod_lt _ h

theorem sum_below (n : Nat) {r : Int} (h : 0 ≤ r) :
    ((range n).map fun i : Nat => if (i : Int) < r then (1 : Int) else 0).sum = min (n : Int) r := by
  induction n with
  | zero => simp [h]
  | succ n ih =>
    rw [range_succ, map_append, sum_append]
    simp only [map_cons, map_nil, sum_cons, sum_nil]
    split <;> omega

theorem sum_shardCap {maxBytes : Int} (h : 0 < maxBytes) {n : Nat} (hn : 0 < n) :
    ((range n).map (shardCap maxBytes n)).sum = maxBytes := by
  have hpos : (0 : Int) < n := Int.natCast_pos.mpr hn
  have hrem := Int.emod_nonneg maxBytes (Int.ne_of_gt hpos)
  have hlt := Int.emod_lt_of_pos maxBytes hpos
  have hcap : (range n).map (shardCap maxBytes n) =
      (range n).map fun i : Nat => maxBytes / n + if (i : Int) < maxBytes % n then 1 else 0 := by
    refine map_congr_left fun i _ => ?_
    rw [shardCap, if_neg (by omega)]
  rw [hcap, sum_map_add, sum_below n hrem, map_const', sum_replicate,
    length_range, Int.min_eq_right (Int.le_of_lt hlt)]
  exact Int.mul_ediv_add_emod maxBytes n

/-! ## Shelves -/

structure Shelf (ν : Type) where
  maxBytes : Int
  curBytes : Int
  atomicBytes : Int
  items : FinMap Str ν
  lru : List Str

variable {ν : Type}

/-- The books of the `i`-th shard of a tier are in order. -/
structure Shelf.Ok (w : ν → Int) (maxBytes : Int) (i : Nat) (s : Shelf ν) : Prop where
  cap : s.maxBytes = shardCap maxBytes (shardCount maxBytes) i
  ledger : Ledger w s.lru s.items s.curBytes
  mirror : s.atomicBytes = s.curBytes
  fits : s.curBytes ≤ max s.maxBytes 0
  home : ∀ key ∈ s.items, shardIndex key (shardCount maxBytes) = i

theorem Shelf.Ok.empty (w : ν → Int) {maxBytes cap : Int} {i : Nat}
    (hcap : cap = shardCap maxBytes (shardCount maxBytes) i) :
    Shelf.Ok w maxBytes i ⟨cap, 0, 0, ∅, []⟩ where
  cap := hcap
  ledger := .empty w
  mirror := rfl
  fits := Int.le_max_right _ _
  home key hkey := absurd hkey (AList.notMem_empty key)

/-! ## Tiers -/

section Tier

variable (w : ν → Int) (maxBytes : Int) (shelves : Nat → Shelf ν)

def tierBytes : Int := ((List.range (shardCount maxBytes)).map fun i => (shelves i).atomicBytes).sum

def tierLen : Nat :=
  ((List.range (shardCount maxBytes)).map fun i => (shelves i).items.entries.length).sum

def residents : List (Sigma fun _ : Str => ν) :=
  (List.range (shardCount maxBytes)).flatMap fun i => (shelves i).items.entries

structure Books : Prop where
  shards : ∀ i < shardCount maxBytes, (shelves i).Ok w maxBytes i
  bytes : tierBytes maxBytes shelves = ((residents maxBytes shelves).map fun e => w e.2).sum
  bounded : tierBytes maxBytes shelves ≤ max maxBytes 0
  len : tierLen maxBytes shelves = (residents maxBytes shelves).length
  once : ((residents maxBytes shelves).map Sigma.fst).Nodup

variable {w maxBytes shelves}

section

variable (h : ∀ i < shardCount maxBytes, (shelves i).Ok w maxBytes i)

include h

theorem tierBytes_eq :
    tierBytes maxBytes shelves = ((residents maxBytes shelves).map fun e => w e.2).sum := by
  rw [residents, map_flatMap, flatMap, sum_flatten, List.map_map]
  refine congrArg sum (map_congr_left fun i hi => ?_)
  have hok := h i (mem_range.mp hi)
  rw [hok.mirror, hok.ledger.sum]
  rfl

theorem tierBytes_le : tierBytes maxBytes shelves ≤ max maxBytes 0 := by
  have hbound : tierBytes maxBytes shelves ≤ ((range (shardCount maxBytes)).map fun i =>
      max (shardCap maxBytes (shardCount maxBytes) i) 0).sum := by
    refine sum_le_sum fun i hi => ?_
    have hok := h i (mem_range.mp hi)
    rw [hok.mirror, ← hok.cap]
    exact hok.fits
  refine hbound.trans ?_
  by_cases hpos : 0 < maxBytes
  · have hcaps : ∀ i ∈ range (shardCount maxBytes),
        max (shardCap maxBytes (shardCount maxBytes) i) 0 =
          shardCap maxBytes (shardCount maxBytes) i := by
      intro i _
      have hdiv := Int.ediv_nonneg (Int.le_of_lt hpos) (Int.natCast_nonneg (shardCount maxBytes))
      rw [shardCap]
      split <;> omega
    rw [map_congr_left hcaps, sum_shardCap hpos (shardCount_pos maxBytes)]
    exact Int.le_max_left _ _
  · have hcaps : ∀ i ∈ range (shardCount maxBytes),
        max (shardCap maxBytes (shardCount maxBytes) i) 0 = 0 := by
      intro i _
      rw [shardCap]
      omega
    rw [map_congr_left hcaps, map_const', sum_replicate]
    exact Int.le_max_right _ _

theorem residents_once : ((residents maxBytes shelves).map Sigma.fst).Nodup := by
  rw [residents, map_flatMap]
  refine nodup_flatMap.mpr ⟨fun i _ => (shelves i).items.keys_nodup, ?_⟩
  refine nodup_range.imp_of_mem fun {i j} hi hj hne => ?_
  -- a key of two shards would hash to both
  rintro key hki hkj
  have hhome := (h i (mem_range.mp hi)).home key hki
  exact hne (hhome.symm.trans ((h j (mem_range.mp hj)).home key hkj))

theorem Books.of_shelves :
    Books w maxBytes shelves where
  shards := h
  bytes := tierBytes_eq h
  bounded := tierBytes_le h
  len := by rw [tierLen, residents, length_flatMap]
  once := residents_once h

end

end Tier

end Cadish
