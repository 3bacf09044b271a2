import Mathlib.Data.List.AList

/-!
# Finite maps

Mathlib's `AList` at a constant family carries the proof that no key occurs twice. Operations on all
the bindings at once are added: to filter, to count, and to replace every value.
-/

universe u v w

abbrev FinMap (κ : Type u) (ν : Type v) := AList fun _ : κ => ν

namespace FinMap

open List Option

variable {κ : Type u} {ν : Type v} {ν' : Type w}

variable {k : κ} {m : FinMap κ ν} {v : ν}

variable (f : κ → ν → ν') (p : κ → ν → Bool)

def filter (m : FinMap κ ν) : FinMap κ ν where
  entries := m.entries.filter fun b => p b.1 b.2
  nodupKeys := m.nodupKeys.sublist List.filter_sublist

def count (m : FinMap κ ν) : Nat :=
  m.entries.countP fun b => p b.1 b.2

theorem keys_map (l : List (Sigma fun _ : κ => ν)) :
    (l.map fun b => (⟨b.1, f b.1 b.2⟩ : Sigma fun _ : κ => ν')).keys = l.keys := by
  rw [keys, List.map_map]
  rfl

theorem nodupKeys_map (m : FinMap κ ν) :
    (m.entries.map fun b => (⟨b.1, f b.1 b.2⟩ : Sigma fun _ : κ => ν')).NodupKeys := by
  rw [List.NodupKeys, keys_map]
  exact m.nodupKeys

def mapVal (m : FinMap κ ν) : FinMap κ ν' where
  entries := m.entries.map fun b => ⟨b.1, f b.1 b.2⟩
  nodupKeys := nodupKeys_map f m

theorem mem_entries_mapVal {f : κ → ν → ν'} {v' : ν'} :
    (⟨k, v'⟩ : Sigma fun _ : κ => ν') ∈ (m.mapVal f).entries ↔
      ∃ v, ⟨k, v⟩ ∈ m.entries ∧ f k v = v' := by
  rw [mapVal, List.mem_map]
  constructor
  · rintro ⟨⟨k', v⟩, hmem, heq⟩
    cases heq
    exact ⟨v, hmem, rfl⟩
  · rintro ⟨v, hmem, rfl⟩
    exact ⟨⟨k, v⟩, hmem, rfl⟩

variable [DecidableEq κ]

@[simp] theorem lookup_mapVal (f : κ → ν → ν') (m : FinMap κ ν) (k : κ) :
    (m.mapVal f).lookup k = (m.lookup k).map (f k) := by
  ext v'
  rw [← mem_def, AList.mem_lookup_iff, mem_entries_mapVal]
  simp [← AList.mem_lookup_iff]

theorem mem_lookup_filter {p : κ → ν → Bool} : v ∈ (m.filter p).lookup k ↔ v ∈ m.lookup k ∧ p k v := by
  rw [AList.mem_lookup_iff, AList.mem_lookup_iff, filter, mem_filter]

@[simp] theorem lookup_filter (p : κ → ν → Bool) (m : FinMap κ ν) (k : κ) :
    (m.filter p).lookup k = (m.lookup k).filter (p k) := by
  ext v
  rw [filter_eq_some_iff]
  exact mem_lookup_filter

theorem lookup_filter_of {p : κ → ν → Bool} (h : ∀ v ∈ m.lookup k, p k v = true) :
    (m.filter p).lookup k = m.lookup k := by
  ext v
  rw [← mem_def, mem_lookup_filter, and_iff_left_of_imp (h v)]
  rfl

theorem lookup_insert_ite (m : FinMap κ ν) (k k' : κ) (v : ν) :
    (m.insert k v).lookup k' = if k' = k then some v else m.lookup k' := by
  by_cases h : k' = k
  · subst h
    rw [if_pos rfl, AList.lookup_insert]
  · rw [if_neg h, AList.lookup_insert_ne h]

theorem lookup_foldl_insert_of_not_mem {l : List (κ × ν)} (m : FinMap κ ν) (h : ∀ v, (k, v) ∉ l) :
    (l.foldl (fun m e => m.insert e.1 e.2) m).lookup k = m.lookup k := by
  induction l generalizing m with
  | nil => rfl
  | cons e l ih =>
    rw [foldl_cons, ih _ fun v hv => h v (mem_cons_of_mem _ hv), lookup_insert_ite, if_neg]
    rintro rfl
    exact h e.2 mem_cons_self

theorem lookup_foldl_insert_of_mem {l : List (κ × ν)} (m : FinMap κ ν) (h : (k, v) ∈ l)
    (huniq : ∀ v', (k, v') ∈ l → v' = v) :
    (l.foldl (fun m e => m.insert e.1 e.2) m).lookup k = some v := by
  induction l generalizing m with
  | nil => cases h
  | cons e l ih =>
    rw [foldl_cons]
    by_cases hmem : ∃ v', (k, v') ∈ l
    · obtain ⟨v', hv'⟩ := hmem
      obtain rfl := huniq v' (mem_cons_of_mem _ hv')
      exact ih _ hv' fun w hw => huniq w (mem_cons_of_mem _ hw)
    · rcases mem_cons.mp h with rfl | h
      · rw [lookup_foldl_insert_of_not_mem _ fun v' hv' => hmem ⟨v', hv'⟩, lookup_insert_ite,
          if_pos rfl]
      · exact absurd ⟨v, h⟩ hmem

theorem length_insert (m : FinMap κ ν) (k : κ) (v : ν) : (m.insert k v).entries.length =
    m.entries.length + if m.lookup k = none then 1 else 0 := by
  have hkeys (m : FinMap κ ν) : m.entries.length = m.keys.length := (length_map _).symm
  rw [hkeys, hkeys, AList.keys_insert, length_cons]
  split
  case isTrue hnew => rw [erase_of_not_mem (AList.lookup_eq_none.mp hnew)]
  case isFalse hold =>
    have hmem : k ∈ m.keys := AList.lookup_isSome.mp (isSome_iff_ne_none.mpr hold)
    rw [length_erase_add_one hmem, Nat.add_zero]

theorem lookup_erase_ite (m : FinMap κ ν) (k k' : κ) :
    (m.erase k).lookup k' = if k' = k then none else m.lookup k' := by
  by_cases h : k' = k
  · subst h
    rw [if_pos rfl, AList.lookup_erase]
  · rw [if_neg h, AList.lookup_erase_ne h]

theorem mem_lookup_erase {k' : κ} (h : v ∈ (m.erase k).lookup k') : v ∈ m.lookup k' := by
  rw [lookup_erase_ite] at h
  split at h
  · cases h
  · exact h

/-! ## Updates of one key -/

theorem erase_of_lookup_eq_none (h : m.lookup k = none) : m.erase k = m :=
  AList.ext (kerase_of_notMem_keys (AList.lookup_eq_none.mp h))

theorem erase_erase_self (m : FinMap κ ν) (k : κ) : (m.erase k).erase k = m.erase k :=
  erase_of_lookup_eq_none (AList.lookup_erase k m)

theorem insert_erase (m : FinMap κ ν) (k : κ) (v : ν) : (m.erase k).insert k v = m.insert k v := by
  refine AList.ext ?_
  rw [AList.entries_insert]
  exact congrArg _ (congrArg AList.entries (erase_erase_self m k))

theorem erase_insert (m : FinMap κ ν) (k : κ) (v : ν) : (m.insert k v).erase k = m.erase k := by
  refine AList.ext ?_
  exact kerase_cons_eq rfl

end FinMap
