import Cadish.Cache.Meta
import Cadish.Lib.FinMap
import Cadish.Lib.Lossy

/-!
# The RAM tier

Bodies in memory. A shard evicts by CLOCK: a read sets a bit on the entry, and the hand takes the
entries from the back of a ring, giving one whose bit is set another lap. A writer that would pass a
bound swallows the rest of its body and commits nothing, *without an error*. Seen from outside the
tier is a lossy map (`RamTier.contents`).
-/

namespace Cadish

open List

structure RamEntry where
  objectMeta : ObjectMeta
  data : Str
  /-- the CLOCK bit: read since the hand last passed -/
  ref : Bool := false

def RamEntry.object (e : RamEntry) : Object := (e.objectMeta, e.data)

structure RamShard where
  maxBytes : Int
  curBytes : Int := 0
  atomicBytes : Int := 0
  items : FinMap Str RamEntry := ∅
  lru : List Str := []

namespace RamShard

variable (s : RamShard) (key : Str)

def remove : RamShard :=
  match s.items.lookup key with
  | none => s
  | some old =>
    { s with
      curBytes := s.curBytes - old.data.length
      lru := s.lru.erase key
      items := s.items.erase key }

/-- A round of the eviction loop of `commit`, for an object of `size` bytes; none when the loop is
over. -/
def round (size : Int) (s : RamShard) : Option RamShard :=
  if s.curBytes + size ≤ s.maxBytes then none
  else
    match s.lru.getLast? with
    | none => none
    | some ek =>
      match s.items.lookup ek with
      -- a node of the ring without an entry
      | none => some { s with lru := s.lru.dropLast }
      | some ev =>
        if ev.ref then
          some { s with
            items := s.items.insert ek { ev with ref := false }
            lru := ek :: s.lru.dropLast }
        else
          some { s with
            curBytes := s.curBytes - ev.data.length
            items := s.items.erase ek
            lru := s.lru.dropLast }

def makeRoom (size : Int) : Nat → RamShard → RamShard
  | 0, s => s
  | fuel + 1, s =>
    match round size s with
    | none => s
    | some s => makeRoom size fuel s

def contents : Option Object := (s.items.lookup key).map RamEntry.object

def commit (m : ObjectMeta) (data : Str) : RamShard × Bool :=
  let size : Int := data.length
  if s.maxBytes < size then (s, false)
  else
    let s := s.remove m.key
    let s := makeRoom size (2 * s.lru.length) s
    ({ s with
        curBytes := s.curBytes + size
        atomicBytes := s.curBytes + size
        items := s.items.insert m.key ⟨(m.with data).1, data, false⟩
        lru := m.key :: s.lru }, true)

def delete : RamShard :=
  { s.remove key with atomicBytes := (s.remove key).curBytes }

def touch : RamShard :=
  match s.items.lookup key with
  | none => s
  | some e => { s with items := s.items.insert key { e with ref := true } }

end RamShard

/-- `RAMTier`. A bound that is not positive is no bound. -/
structure RamTier where
  maxBytes : Int
  /-- how much one writer may buffer -/
  maxObjectBytes : Int
  /-- how much all writers may buffer -/
  inflightBudget : Int
  inflightBytes : Int
  shards : Nat → RamShard

structure RamWriter where
  objectMeta : ObjectMeta
  buf : Str := []
  reserved : Int := 0
  /-- it has passed a bound and given up -/
  overflow : Bool := false

namespace RamTier

def new (maxBytes maxObjectBytes inflightBudget : Int) : RamTier :=
  ⟨maxBytes, maxObjectBytes, inflightBudget, 0,
    fun i => { maxBytes := shardCap maxBytes (shardCount maxBytes) i }⟩

variable (t : RamTier) (key : Str) (w : RamWriter)

def shardOf : Nat := shardIndex key (shardCount t.maxBytes)

def shard : RamShard := t.shards (t.shardOf key)

def updateShard (s : RamShard) : RamTier :=
  { t with shards := Function.update t.shards (t.shardOf key) s }

/-- `reserve`: charge the budget of all writers, or nothing. -/
def reserve (delta : Int) : Option RamTier :=
  if t.inflightBudget ≤ 0 then some t
  else if t.inflightBudget < t.inflightBytes + delta then none
  else some { t with inflightBytes := t.inflightBytes + delta }

def release (n : Int) : RamTier :=
  if 0 < n then { t with inflightBytes := t.inflightBytes - n } else t

def writer (m : ObjectMeta) : RamWriter := { objectMeta := m }

def dropBuffer : RamTier × RamWriter :=
  (t.release w.reserved, { w with overflow := true, buf := [], reserved := 0 })

def write (p : Str) : RamTier × RamWriter :=
  if w.overflow then (t, w)
  else
    let need : Int := (w.buf ++ p).length
    if 0 < t.maxObjectBytes ∧ t.maxObjectBytes < need then t.dropBuffer w
    else
      let delta := need - w.reserved
      if 0 < delta then
        match t.reserve delta with
        | none => t.dropBuffer w
        | some t => (t, { w with buf := w.buf ++ p, reserved := w.reserved + delta })
      else (t, { w with buf := w.buf ++ p })

/-- The bound on one object allows this length. -/
def Allows (n : Int) : Prop := 0 < t.maxObjectBytes → n ≤ t.maxObjectBytes

/-- `commit`: install an object in the shard of its key; whether it was installed. -/
def install (m : ObjectMeta) (data : Str) : RamTier × Bool :=
  let (s, stored) := (t.shard m.key).commit m data
  (t.updateShard m.key s, stored)

/-- `Commit` of a writer. It never fails; `Stored` tells whether the object is there. -/
def commit : RamTier × Bool :=
  if w.overflow then (t.release w.reserved, false)
  else
    let (t, stored) := t.install w.objectMeta w.buf
    (t.release w.reserved, stored)

def abort : RamTier := t.release w.reserved

def delete : RamTier := t.updateShard key ((t.shard key).delete key)

def contents : Option Object := (t.shard key).contents key

def get : RamTier := t.updateShard key ((t.shard key).touch key)

end RamTier

/-! ## The tier as a lossy map -/

open Lossy

namespace RamShard

variable (s : RamShard)

variable {s' : RamShard} {size : Int}

theorem erase_forgets {key : Str} (h : s'.items = s.items.erase key) :
    Forgets s.contents s'.contents := by
  intro k x hx
  rw [contents, h] at hx
  obtain ⟨e, he, rfl⟩ := Option.map_eq_some_iff.mp hx
  exact Option.mem_map_of_mem _ (FinMap.mem_lookup_erase he)

theorem mark_forgets {key : Str} {e : RamEntry} {b : Bool} (he : s.items.lookup key = some e)
    (h : s'.items = s.items.insert key { e with ref := b }) : Forgets s.contents s'.contents := by
  intro k x hx
  rw [contents, h, FinMap.lookup_insert_ite] at hx
  split at hx
  case isTrue hk => rwa [contents, hk, he]
  case isFalse => exact hx

theorem insert_puts {m : ObjectMeta} {data : Str}
    (h : s'.items = s.items.insert m.key ⟨(m.with data).1, data, false⟩) :
    Puts m.key (m.with data) s.contents s'.contents := by
  refine ⟨?_, fun k hk x hx => ?_⟩
  · rw [contents, h, AList.lookup_insert]
    rfl
  · rwa [contents, h, AList.lookup_insert_ne hk] at hx

theorem remove_forgets (key : Str) : Forgets s.contents (s.remove key).contents := by
  unfold remove
  split
  · exact .refl _
  · exact s.erase_forgets rfl

theorem contents_remove_self (key : Str) : (s.remove key).contents key = none := by
  unfold remove
  split
  case h_1 h => rw [contents, h]; rfl
  case h_2 => rw [contents, AList.lookup_erase]; rfl

theorem round_cases {s : RamShard} (h : round size s = some s') :
    ∃ ek, s.lru.getLast? = some ek ∧ (s'.maxBytes = s.maxBytes ∧ s.maxBytes < s.curBytes + size) ∧
      ((s'.lru = s.lru.dropLast ∧ s'.items = s.items.erase ek ∧
          s'.curBytes = s.curBytes - ((s.items.lookup ek).elim 0 fun ev => ev.data.length) ∧
          (s.items.lookup ek).any RamEntry.ref = false) ∨
        ∃ ev, s.items.lookup ek = some ev ∧ ev.ref = true ∧ s'.lru = ek :: s.lru.dropLast ∧
          s'.items = s.items.insert ek { ev with ref := false } ∧ s'.curBytes = s.curBytes) := by
  unfold round at h
  split at h
  · cases h
  rename_i hover
  rw [Int.not_le] at hover
  split at h
  · cases h
  case h_2 ek hback =>
    refine ⟨ek, hback, ?_⟩
    split at h
    case h_1 hnone =>
      cases h
      refine ⟨⟨rfl, hover⟩, .inl ⟨rfl, (FinMap.erase_of_lookup_eq_none hnone).symm, ?_⟩⟩
      rw [hnone]
      exact ⟨(Int.sub_zero _).symm, rfl⟩
    case h_2 ev hev =>
      split at h
      case isTrue href =>
        cases h
        exact ⟨⟨rfl, hover⟩, .inr ⟨ev, hev, href, rfl, rfl, rfl⟩⟩
      case isFalse href =>
        cases h
        refine ⟨⟨rfl, hover⟩, .inl ⟨rfl, rfl, ?_⟩⟩
        rw [hev]
        exact ⟨rfl, Bool.not_eq_true _ ▸ href⟩

theorem round_forgets {s : RamShard} (h : round size s = some s') : Forgets s.contents s'.contents := by
  obtain ⟨ek, -, -, ⟨-, hitems, -⟩ | ⟨ev, hev, -, -, hitems, -⟩⟩ := round_cases h
  · exact s.erase_forgets hitems
  · exact s.mark_forgets hev hitems

theorem makeRoom_forgets (size : Int) (fuel : Nat) :
    Forgets s.contents (makeRoom size fuel s).contents := by
  induction fuel generalizing s with
  | zero => exact .refl _
  | succ fuel ih =>
    rw [makeRoom]
    split
    · exact .refl _
    case h_2 s' hround => exact (round_forgets hround).trans (ih s')

theorem touch_forgets (key : Str) : Forgets s.contents (s.touch key).contents := by
  unfold touch
  split
  · exact .refl _
  case h_2 e he => exact s.mark_forgets he rfl

theorem delete_forgets (key : Str) : Forgets s.contents (s.delete key).contents :=
  s.remove_forgets key

theorem contents_delete_self (key : Str) : (s.delete key).contents key = none :=
  s.contents_remove_self key

theorem commit_cases (m : ObjectMeta) (data : Str) :
    (s.maxBytes < data.length ∧ s.commit m data = (s, false)) ∨
      ((data.length : Int) ≤ s.maxBytes ∧ (s.commit m data).2 = true ∧
        Puts m.key (m.with data) s.contents (s.commit m data).1.contents) := by
  by_cases hcap : s.maxBytes < data.length
  · exact .inl ⟨hcap, by rw [commit]; exact if_pos hcap⟩
  refine .inr ⟨Int.not_lt.mp hcap, ?_⟩
  rw [commit]
  simp only [if_neg hcap, true_and]
  -- the replaced entry and the evicted ones are forgotten before the object is put
  have hroom := (s.remove m.key).makeRoom_forgets data.length (2 * (s.remove m.key).lru.length)
  exact .of_forgets ((s.remove_forgets m.key).trans hroom) (insert_puts _ rfl)

/-! ## The loop ends -/

/-- The rounds left: a node of the ring costs one, and a set bit another. -/
def rounds : Nat := s.lru.length + s.lru.countP fun k => (s.items.lookup k).any RamEntry.ref

theorem rounds_le : s.rounds ≤ 2 * s.lru.length := by
  have := s.lru.countP_le_length (p := fun k => (s.items.lookup k).any RamEntry.ref)
  rw [rounds]
  omega

theorem round_rounds {s : RamShard} (h : round size s = some s') : s'.rounds < s.rounds := by
  obtain ⟨ek, hback, -, hcases⟩ := round_cases h
  have hring : s.lru = s.lru.dropLast ++ [ek] := (dropLast_append_getLast? ek hback).symm
  -- whichever it is, no bit of the other nodes is set
  have hcount : s.lru.dropLast.countP (fun k => (s'.items.lookup k).any RamEntry.ref) ≤
      s.lru.dropLast.countP fun k => (s.items.lookup k).any RamEntry.ref := by
    refine countP_mono_left fun k _ hk => ?_
    obtain ⟨-, hitems, -⟩ | ⟨ev, -, -, -, hitems, -⟩ := hcases
    · rw [hitems, FinMap.lookup_erase_ite] at hk
      split at hk
      · cases hk
      · exact hk
    · rw [hitems, FinMap.lookup_insert_ite] at hk
      split at hk
      · cases hk
      · exact hk
  obtain ⟨hlru, -⟩ | ⟨ev, hev, href, hlru, hitems, -⟩ := hcases
  · rw [rounds, rounds, hlru, hring]
    simp only [dropLast_concat, length_append, countP_append, length_singleton]
    omega
  have hself : (s'.items.lookup ek).any RamEntry.ref = false := by
    rw [hitems, AList.lookup_insert]
    rfl
  rw [rounds, rounds, hlru, hring]
  simp only [dropLast_concat, length_append, length_cons, countP_append,
    countP_cons, hself, hev, Option.any_some, href,
    if_true, Bool.false_eq_true, if_false]
  omega

theorem makeRoom_done (size : Int) {fuel : Nat} (h : s.rounds ≤ fuel) :
    round size (makeRoom size fuel s) = none := by
  induction fuel generalizing s with
  | zero =>
    have hempty : s.lru = [] := length_eq_zero_iff.mp (by rw [rounds] at h; omega)
    rw [makeRoom, round, hempty]
    split <;> rfl
  | succ fuel ih =>
    rw [makeRoom]
    split
    case h_1 hround => exact hround
    case h_2 s' hround => exact ih s' (by have := round_rounds hround; omega)

theorem makeRoom_twice (size : Int) :
    round size (makeRoom size (2 * s.lru.length) s) = none :=
  s.makeRoom_done size s.rounds_le

end RamShard

namespace RamTier

variable (t : RamTier)

theorem shard_updateShard (key k : Str) (s : RamShard) :
    (t.updateShard key s).shard k = if t.shardOf k = t.shardOf key then s else t.shard k := by
  exact Function.update_apply t.shards (t.shardOf key) s (t.shardOf k)

theorem updateShard_forgets {key : Str} {s : RamShard}
    (h : Forgets (t.shard key).contents s.contents) :
    Forgets t.contents (t.updateShard key s).contents := by
  intro k x hx
  rw [contents, shard_updateShard] at hx
  split at hx
  case isTrue hk =>
    rw [contents, shard, hk]
    exact h k x hx
  case isFalse => exact hx

theorem updateShard_puts {key : Str} {x : Object} {s : RamShard}
    (h : Puts key x (t.shard key).contents s.contents) :
    Puts key x t.contents (t.updateShard key s).contents := by
  refine ⟨by rw [contents, shard_updateShard, if_pos rfl, h.self], fun k hk y hy => ?_⟩
  rw [contents, shard_updateShard] at hy
  split at hy
  case isTrue hshard =>
    rw [contents, shard, hshard]
    exact h.other k hk y hy
  case isFalse => exact hy

theorem get_forgets (key : Str) : Forgets t.contents (t.get key).contents :=
  t.updateShard_forgets ((t.shard key).touch_forgets key)

theorem delete_forgets (key : Str) : Forgets t.contents (t.delete key).contents :=
  t.updateShard_forgets ((t.shard key).delete_forgets key)

theorem contents_delete_self (key : Str) : (t.delete key).contents key = none := by
  rw [contents, delete, shard_updateShard, if_pos rfl]
  exact (t.shard key).contents_delete_self key

@[simp] theorem contents_release (n : Int) : (t.release n).contents = t.contents := by
  unfold release
  split <;> rfl

theorem reserve_eq {t' : RamTier} {delta : Int} (h : t.reserve delta = some t') :
    t' = { t with inflightBytes := t'.inflightBytes } ∧
      (0 < t.inflightBudget → t'.inflightBytes = t.inflightBytes + delta) := by
  unfold reserve at h
  split at h
  case isTrue hnone =>
    cases h
    exact ⟨rfl, fun hpos => absurd hpos (Int.not_lt.mpr hnone)⟩
  split at h
  · cases h
  · cases h
    exact ⟨rfl, fun _ => rfl⟩

variable (w : RamWriter)

theorem write_cases (p : Str) :
    (w.overflow = true ∧ t.write w p = (t, w)) ∨
      (w.overflow = false ∧ t.write w p = t.dropBuffer w ∧
        (t.Allows (w.buf ++ p).length →
          w.reserved < (w.buf ++ p).length ∧ t.reserve ((w.buf ++ p).length - w.reserved) = none)) ∨
      w.overflow = false ∧ t.Allows (w.buf ++ p).length ∧ ∃ t',
        (w.reserved < (w.buf ++ p).length ∧ t.reserve ((w.buf ++ p).length - w.reserved) = some t' ∨
          ((w.buf ++ p).length ≤ w.reserved ∧ t' = t)) ∧
        t.write w p = (t', { w with buf := w.buf ++ p, reserved := max w.reserved (w.buf ++ p).length }) := by
  rw [write]
  split
  case isTrue hover => exact .inl ⟨hover, rfl⟩
  case isFalse hover =>
    rw [Bool.not_eq_true] at hover
    refine .inr ?_
    dsimp only
    split
    case isTrue hlarge =>
      exact .inl ⟨hover, rfl, fun hallows => absurd (hallows hlarge.1) (Int.not_le.mpr hlarge.2)⟩
    case isFalse hsmall =>
      have hallows : t.Allows (w.buf ++ p).length :=
        fun hpos => Int.not_lt.mp fun hlarge => hsmall ⟨hpos, hlarge⟩
      split
      case isTrue hgrow =>
        have hlt : w.reserved < (w.buf ++ p).length := by omega
        split
        case h_1 hnone => exact .inl ⟨hover, rfl, fun _ => ⟨hlt, hnone⟩⟩
        case h_2 t' hsome =>
          refine .inr ⟨hover, hallows, t', .inl ⟨hlt, hsome⟩, ?_⟩
          rw [Int.max_eq_right (Int.le_of_lt hlt)]
          simp
      case isFalse hsame =>
        have hle : (w.buf ++ p).length ≤ w.reserved := by omega
        refine .inr ⟨hover, hallows, t, .inr ⟨hle, rfl⟩, ?_⟩
        rw [Int.max_eq_left hle]

theorem write_frame (p : Str) :
    (t.write w p).1 = { t with inflightBytes := (t.write w p).1.inflightBytes } := by
  obtain ⟨-, heq⟩ | ⟨-, heq, -⟩ | ⟨-, -, t', hsome | ⟨-, rfl⟩, heq⟩ := t.write_cases w p
  · rw [heq]
  · rw [heq, dropBuffer, release]
    split <;> rfl
  · rw [heq]
    exact (t.reserve_eq hsome.2).1
  · rw [heq]

@[simp] theorem contents_write (p : Str) :
    (t.write w p).1.contents = t.contents := by
  rw [write_frame]
  rfl

@[simp] theorem contents_abort : (t.abort w).contents = t.contents :=
  t.contents_release _

theorem commit_cases :
    ((t.commit w).2 = false ∧ (t.commit w).1.contents = t.contents) ∨
      ((t.commit w).2 = true ∧ w.overflow = false ∧
        Puts w.objectMeta.key (w.objectMeta.with w.buf) t.contents (t.commit w).1.contents) := by
  rw [commit]
  split
  · exact .inl ⟨rfl, t.contents_release _⟩
  case isFalse hover =>
    rw [Bool.not_eq_true] at hover
    obtain ⟨-, hsame⟩ | ⟨-, hstored, hput⟩ := (t.shard w.objectMeta.key).commit_cases w.objectMeta w.buf
    · refine .inl ?_
      simp only [install, hsame, contents_release, true_and]
      rw [updateShard, shard, Function.update_eq_self]
    · refine .inr ⟨hstored, hover, ?_⟩
      simp only [contents_release]
      exact t.updateShard_puts hput

theorem commit_stored_iff :
    (t.commit w).2 = true ↔
      w.overflow = false ∧ (w.buf.length : Int) ≤ (t.shard w.objectMeta.key).maxBytes := by
  rw [commit]
  split
  case isTrue h => simp [h]
  case isFalse h =>
    obtain ⟨hcap, hsame⟩ | ⟨hcap, hstored, -⟩ :=
      (t.shard w.objectMeta.key).commit_cases w.objectMeta w.buf
    · simp [install, hsame, hcap]
    · simp [install, hstored, hcap, h]

end RamTier

end Cadish
