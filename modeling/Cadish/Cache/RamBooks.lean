import Cadish.Cache.Ram
import Cadish.Cache.Shelf
import Cadish.Lib.Run

/-!
# The books of the RAM tier

The ring and the counter agree with the map after every operation and every round of the CLOCK
sweep, so **the books of the RAM tier are in order after every sequence of operations**
(`RamTier.books`).
-/

namespace Cadish

open Option AList RamEntry List RamShard

def RamEntry.bytes (e : RamEntry) : Int := e.data.length

namespace RamShard

def reset (s : RamShard) : RamShard :=
  { s with items := ∅, lru := [], curBytes := 0, atomicBytes := 0 }

def shelf (s : RamShard) : Shelf RamEntry := ⟨s.maxBytes, s.curBytes, s.atomicBytes, s.items, s.lru⟩

variable {s s' : RamShard} {maxBytes : Int} {i : Nat}

abbrev InStep (s : RamShard) : Prop := Ledger bytes s.lru s.items s.curBytes

theorem InStep.remove (h : s.InStep) (key : Str) : (s.remove key).InStep := by
  unfold RamShard.remove
  split
  · exact h
  case h_2 old hold => exact h.erase hold

theorem InStep.round {size : Int} (h : s.InStep) (hround : round size s = some s') :
    s'.InStep := by
  obtain ⟨ek, hback, -, ⟨hlru, hitems, hbytes, -⟩ | ⟨ev, hev, -, hlru, hitems, hbytes⟩⟩ :=
    round_cases hround
  · obtain ⟨⟨ev, hev⟩, herase⟩ := h.getLast hback
    rw [InStep, hlru, hitems, hbytes, hev, ← herase]
    exact h.erase hev
  · have hring : (ek :: s.lru.dropLast).Perm s.lru := by
      have hsplit := dropLast_append_getLast? ek hback
      nth_rewrite 2 [← hsplit]
      exact (perm_append_singleton ek s.lru.dropLast).symm
    rw [InStep, hlru, hitems, hbytes]
    exact (h.exchange hev (by rfl : bytes { ev with ref := false } = ev.bytes)).reorder hring

theorem InStep.makeRoom (h : s.InStep) (size : Int) (fuel : Nat) :
    (makeRoom size fuel s).InStep := by
  induction fuel generalizing s with
  | zero => exact h
  | succ fuel ih =>
    rw [makeRoom]
    split
    · exact h
    case h_2 s' hround => exact ih (h.round hround)

theorem maxBytes_makeRoom (size : Int) (fuel : Nat) (s : RamShard) :
    (makeRoom size fuel s).maxBytes = s.maxBytes := by
  induction fuel generalizing s with
  | zero => rfl
  | succ fuel ih =>
    rw [makeRoom]
    split
    · rfl
    case h_2 s' hround =>
      obtain ⟨-, -, ⟨hmax, -⟩, -⟩ := round_cases hround
      rw [ih, hmax]

theorem maxBytes_remove (s : RamShard) (key : Str) : (s.remove key).maxBytes = s.maxBytes := by
  unfold remove
  split <;> rfl

theorem InStep.fits (h : s.InStep) {size : Int} (hsize : size ≤ s.maxBytes)
    (hdone : RamShard.round size s = none) : s.curBytes + size ≤ s.maxBytes := by
  unfold RamShard.round at hdone
  split at hdone
  case isTrue hfits => exact hfits
  case isFalse =>
    split at hdone
    case h_1 hempty =>
      have hnil : s.lru = [] := getLast?_eq_none_iff.mp hempty
      rw [InStep, hnil] at h
      rw [h.sum_of_nil]
      omega
    case h_2 =>
      -- with a node at the back there is another round
      split at hdone
      · cases hdone
      · split at hdone <;> cases hdone

theorem items_makeRoom_subset (size : Int) (fuel : Nat) (s : RamShard) {key : Str}
    (h : key ∈ (makeRoom size fuel s).items) : key ∈ s.items := by
  have hforgets := s.makeRoom_forgets size fuel
  obtain ⟨e, he⟩ := isSome_iff_exists.mp (lookup_isSome.mpr h)
  have hold := hforgets key e.object (by rw [contents, he]; rfl)
  obtain ⟨e', he', -⟩ := map_eq_some_iff.mp hold
  exact lookup_isSome.mp (isSome_of_mem he')

theorem mem_remove {key k : Str} (h : k ∈ (s.remove key).items) : k ≠ key ∧ k ∈ s.items := by
  unfold remove at h
  split at h
  case h_1 hnone =>
    refine ⟨?_, h⟩
    rintro rfl
    exact lookup_eq_none.mp hnone h
  case h_2 => exact mem_erase.mp h

/-! ## The second chance

An entry whose bit is set goes to the front when the hand comes to it, and so behind all that have
no bit. -/

theorem makeRoom_succ (size : Int) (n : Nat) (s : RamShard) :
    makeRoom size (n + 1) s = (round size (makeRoom size n s)).getD (makeRoom size n s) := by
  induction n generalizing s with
  | zero =>
    rw [makeRoom, makeRoom]
    split
    case h_1 h => rw [h, getD_none]
    case h_2 h => rw [h, makeRoom, getD_some]
  | succ n ih =>
    rw [makeRoom, makeRoom]
    split
    case h_1 h => rw [h, getD_none]
    case h_2 h => exact ih _

theorem ring_split {ring front back : List Str} {key ek : Str} (h : ring = front ++ back)
    (hkey : key ∈ back) (hlast : ring.getLast? = some ek) :
    ek ∈ back ∧ (key ≠ ek → key ∈ back.dropLast) ∧ ring.dropLast = front ++ back.dropLast := by
  have hne : back ≠ [] := ne_nil_of_mem hkey
  rw [h, getLast?_append_of_ne_nil _ hne] at hlast
  refine ⟨mem_of_getLast? hlast, fun hother => ?_, h ▸ dropLast_append_of_ne_nil hne⟩
  rw [← dropLast_append_getLast? ek hlast] at hkey
  simpa [hother] using hkey

/-- The hand takes `key'` before it takes `key`: it has not been read, and `key` has another lap or
is nearer to the front. -/
def Spares (key key' : Str) (s : RamShard) : Prop :=
  key' ∈ s.items → (s.items.lookup key').any ref = false ∧
    ((s.items.lookup key).any ref = true ∨
      ∃ front back, s.lru = front ++ back ∧ key ∈ front ∧ key' ∈ back)

theorem Spares.round {size : Int} {key key' : Str} (hstep : s.InStep) (h : Spares key key' s)
    (hround : round size s = some s') :
    Spares key key' s' ∧ (key ∈ s.items → key ∉ s'.items → key' ∉ s.items) := by
  obtain ⟨ek, hback, -, ⟨hlru, hitems, -, hunread⟩ | ⟨ev, hev, hread, hlru, hitems, -⟩⟩ := round_cases hround
  · -- the entry at the back goes
    constructor
    · intro hkey'
      rw [hitems, mem_erase] at hkey'
      obtain ⟨hother, hkey'⟩ := hkey'
      obtain ⟨hclear, hplace⟩ := h hkey'
      rw [hitems, lookup_erase_ne hother]
      refine ⟨hclear, ?_⟩
      obtain hset | ⟨front, back, hring, hfront, hin⟩ := hplace
      · refine .inl ?_
        rwa [lookup_erase_ne]
        rintro rfl
        rw [hunread] at hset
        cases hset
      · obtain ⟨-, hin', hdrop⟩ := ring_split hring hin hback
        exact .inr ⟨front, back.dropLast, hlru.trans hdrop, hfront, hin' hother⟩
    · intro hkey hgone hkey'
      have heq : key = ek := by
        by_contra hother
        exact hgone (hitems ▸ mem_erase.mpr ⟨hother, hkey⟩)
      subst heq
      obtain ⟨-, hset | ⟨front, back, hring, hfront, hin⟩⟩ := h hkey'
      · rw [hunread] at hset
        cases hset
      · have hnodup := hstep.nodup
        rw [hring, nodup_append] at hnodup
        exact hnodup.2.2 key hfront key (ring_split hring hin hback).1 rfl
  · -- it goes to the front, and its bit with it
    constructor
    · intro hkey'
      have hother : key' ≠ ek := by
        rintro rfl
        obtain ⟨hclear, -⟩ := h (lookup_isSome.mp (isSome_of_mem hev))
        rw [hev, any_some, hread] at hclear
        cases hclear
      have hold : key' ∈ s.items := by
        rw [hitems, mem_insert] at hkey'
        exact hkey'.resolve_left hother
      obtain ⟨hclear, hplace⟩ := h hold
      rw [hitems, lookup_insert_ne hother]
      refine ⟨hclear, ?_⟩
      by_cases hself : key = ek
      · have hin := (ring_split (nil_append _).symm (hstep.mem_iff.mpr hold) hback).2.1 hother
        exact .inr ⟨[ek], s.lru.dropLast, hlru, hself ▸ mem_cons_self, hin⟩
      rw [lookup_insert_ne hself]
      refine hplace.imp_right ?_
      rintro ⟨front, back, hring, hfront, hin⟩
      obtain ⟨-, hin', hdrop⟩ := ring_split hring hin hback
      exact ⟨ek :: front, back.dropLast, by rw [hlru, hdrop, cons_append],
        mem_cons_of_mem _ hfront, hin' hother⟩
    · intro hkey hgone
      exact absurd (hitems ▸ (mem_insert _).mpr (.inr hkey)) hgone

theorem Spares.makeRoom {size : Int} {key key' : Str} {n n' : Nat} (hstep : s.InStep)
    (h : Spares key key' (makeRoom size n s)) (hkey : key ∈ (makeRoom size n s).items) (hn : n ≤ n') :
    Spares key key' (makeRoom size n' s) ∧ (key ∉ (makeRoom size n' s).items →
      ∃ n'' < n', key' ∉ (makeRoom size n'' s).items) := by
  induction n', hn using Nat.le_induction with
  | base => exact ⟨h, fun hgone => absurd hkey hgone⟩
  | succ n' _ ih =>
    obtain ⟨hspares, hfirst⟩ := ih
    have hearlier (hgone : key ∉ (RamShard.makeRoom size n' s).items) :
        ∃ n'' < n' + 1, key' ∉ (RamShard.makeRoom size n'' s).items :=
      (hfirst hgone).imp fun n'' h => ⟨h.1.trans n'.lt_succ_self, h.2⟩
    rw [makeRoom_succ]
    cases hround : RamShard.round size (RamShard.makeRoom size n' s) with
    | none => exact ⟨hspares, hearlier⟩
    | some s' =>
      obtain ⟨hspares', hlast⟩ := hspares.round (hstep.makeRoom size n') hround
      refine ⟨hspares', fun hgone => ?_⟩
      by_cases hin : key ∈ (RamShard.makeRoom size n' s).items
      · exact ⟨n', n'.lt_succ_self, hlast hin hgone⟩
      · exact hearlier hin

/-! ## Operations on a shard -/

theorem ok_reset (h : s.shelf.Ok bytes maxBytes i) :
    s.reset.shelf.Ok bytes maxBytes i := .empty _ h.cap

theorem ok_touch (h : s.shelf.Ok bytes maxBytes i) (key : Str) :
    (s.touch key).shelf.Ok bytes maxBytes i := by
  unfold touch
  split
  · exact h
  case h_2 e he =>
    refine ⟨h.cap, h.ledger.exchange he (by rfl : bytes { e with ref := true } = e.bytes), h.mirror, h.fits, ?_⟩
    intro k hk
    obtain rfl | hk := (mem_insert _).mp hk
    · exact h.home k (lookup_isSome.mp (isSome_of_mem he))
    · exact h.home k hk

theorem curBytes_remove_le (s : RamShard) (key : Str) : (s.remove key).curBytes ≤ s.curBytes := by
  unfold remove
  split
  · exact Int.le_refl _
  · exact Int.sub_le_self _ (Int.natCast_nonneg _)

theorem ok_delete (h : s.shelf.Ok bytes maxBytes i) (key : Str) :
    (s.delete key).shelf.Ok bytes maxBytes i where
  cap := (s.maxBytes_remove key).trans h.cap
  ledger := InStep.remove h.ledger key
  mirror := rfl
  fits := by
    change (s.remove key).curBytes ≤ max (s.remove key).maxBytes 0
    rw [maxBytes_remove]
    exact (s.curBytes_remove_le key).trans h.fits
  home k hk := h.home k (mem_remove hk).2

theorem ok_commit (h : s.shelf.Ok bytes maxBytes i) (m : ObjectMeta) (data : Str)
    (hi : shardIndex m.key (shardCount maxBytes) = i) :
    (s.commit m data).1.shelf.Ok bytes maxBytes i := by
  unfold commit
  dsimp only
  split
  · exact h
  case isFalse hcap =>
    -- the shard once the old entry is gone and the sweep has made room
    generalize hswept : makeRoom data.length (2 * (s.remove m.key).lru.length) (s.remove m.key) = swept
    have hstep : swept.InStep := hswept ▸ (InStep.remove h.ledger m.key).makeRoom _ _
    have hmax : swept.maxBytes = s.maxBytes := by
      rw [← hswept, maxBytes_makeRoom, maxBytes_remove]
    have hdone : round data.length swept = none :=
      hswept ▸ (s.remove m.key).makeRoom_twice data.length
    have hroom : swept.curBytes + data.length ≤ swept.maxBytes := hstep.fits (by omega) hdone
    have hkept : ∀ k ∈ swept.items, k ≠ m.key ∧ k ∈ s.items := by
      intro k hk
      rw [← hswept] at hk
      exact mem_remove (items_makeRoom_subset _ _ _ hk)
    have hnew : swept.items.lookup m.key = none :=
      lookup_eq_none.mpr fun hmem => (hkept _ hmem).1 rfl
    refine ⟨hmax.trans h.cap, hstep.push ⟨(m.with data).1, data, false⟩ hnew, rfl, ?_, fun k hk => ?_⟩
    · exact Int.le_trans hroom (Int.le_max_left _ _)
    · obtain rfl | hk := (mem_insert _).mp hk
      · exact hi
      · exact h.home k (hkept k hk).2

end RamShard

namespace RamTier

def reset (t : RamTier) : RamTier := { t with shards := fun i => (t.shards i).reset }

def shelves (t : RamTier) (i : Nat) : Shelf RamEntry := (t.shards i).shelf

inductive Op where
  | get (key : Str)
  | commit (m : ObjectMeta) (data : Str)
  | delete (key : Str)
  | reset

def apply (t : RamTier) : Op → RamTier
  | .get key => t.get key
  | .commit m data => (t.install m data).1
  | .delete key => t.delete key
  | .reset => t.reset

def Ok (maxBytes : Int) (t : RamTier) : Prop :=
  t.maxBytes = maxBytes ∧ ∀ i, (t.shelves i).Ok bytes maxBytes i

variable (maxBytes maxObjectBytes inflightBudget : Int)

theorem ok_new :
    Ok maxBytes (new maxBytes maxObjectBytes inflightBudget) :=
  ⟨rfl, fun _ => .empty _ rfl⟩

theorem ok_updateShard {t : RamTier} {maxBytes : Int} (h : Ok maxBytes t) {key : Str} {s : RamShard}
    (hs : s.shelf.Ok bytes maxBytes (t.shardOf key)) : Ok maxBytes (t.updateShard key s) := by
  refine ⟨h.1, fun i => ?_⟩
  rw [shelves, updateShard]
  dsimp only
  rw [Function.update_apply]
  split
  case isTrue hi => exact hi ▸ hs
  case isFalse => exact h.2 i

theorem ok_apply {t : RamTier} {maxBytes : Int} (h : Ok maxBytes t) (op : Op) :
    Ok maxBytes (t.apply op) := by
  cases op with
  | get key => exact ok_updateShard h (ok_touch (h.2 _) key)
  | commit m data =>
    have hi : shardIndex m.key (shardCount maxBytes) = t.shardOf m.key := by rw [shardOf, h.1]
    exact ok_updateShard h (ok_commit (h.2 _) m data hi)
  | delete key => exact ok_updateShard h (ok_delete (h.2 _) key)
  | reset => exact ⟨h.1, fun i => ok_reset (h.2 i)⟩

theorem ok_run (ops : List Op) :
    Ok maxBytes (Transition.run apply (new maxBytes maxObjectBytes inflightBudget) ops) :=
  @Transition.run_kept _ _ apply (Ok maxBytes) (fun _ op h => ok_apply h op) _ (ok_new _ _ _) ops

theorem books (ops : List Op) :
    Books bytes maxBytes
      (Transition.run apply (new maxBytes maxObjectBytes inflightBudget) ops).shelves := by
  exact .of_shelves fun i _ => (ok_run maxBytes maxObjectBytes inflightBudget ops).2 i

end RamTier

end Cadish
