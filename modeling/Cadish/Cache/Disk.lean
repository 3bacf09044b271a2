import Cadish.Cache.Meta
import Cadish.Lib.FinMap
import Cadish.Lib.Lossy
import Cadish.Lib.Run

/-!
# The disk tier

Bodies are files; what else a hit needs is in memory and, now and then, in one index file. An
operation is a sequence of *steps*, and a crash falls between two of them: the memory is lost and
the files stay. The order of a shard's map is its LRU order, and its byte count is not stored.
-/

namespace Cadish

open List

structure Blob where
  /-- the metadata of the commit that wrote it; nothing of it is in the file -/
  writtenBy : ObjectMeta
  body : Str
deriving DecidableEq

structure DiskShard where
  /-- the entries, most recently used first -/
  items : FinMap Str ObjectMeta := ∅
  dirty : Bool := false

structure DiskTier where
  maxBytes : Int
  shards : Nat → DiskShard
  blobs : FinMap Str Blob
  index : Option (List ObjectMeta)
  /-- a flush under way: the next shard to take, and the entries taken -/
  pending : Option (Nat × List ObjectMeta)

inductive DiskStep where
  | drop (key : Str)
  | install (m : ObjectMeta) (body : Str)
  | touch (key : Str)
  | vanish (file : Str)
  | flushBegin
  | flushShard
  | flushWrite
  | restart (maxBytes : Int)

namespace DiskTier

variable (t : DiskTier) (i : Nat) (key : Str)

def updateShard (g : DiskShard → DiskShard) : DiskTier :=
  { t with shards := Function.update t.shards i (g (t.shards i)) }

def shardOf : Nat := shardIndex key (shardCount t.maxBytes)

def shard : DiskShard := t.shards (t.shardOf key)

def cap : Int := shardCap t.maxBytes (shardCount t.maxBytes) i

def entryBytes (l : List (Sigma fun _ : Str => ObjectMeta)) : Int := (l.map fun e => e.2.size).sum

/-- The keys that go, least recently used first, until `n` more bytes fit. -/
def victims (cap n : Int) : List (Sigma fun _ : Str => ObjectMeta) → List Str
  | [] => []
  | e :: l => if cap < entryBytes (e :: l) + n then e.1 :: victims cap n l else []

section Files

variable (blobPath : Str → Str)

variable (t : DiskTier) (m : ObjectMeta) (key : Str)

def removeLocked : DiskTier :=
  match (t.shard key).items.lookup key with
  | none => t
  | some _ =>
    { t.updateShard (t.shardOf key) fun s => ⟨s.items.erase key, true⟩ with
      blobs := t.blobs.erase (blobPath key) }

def pushFront (dirty : Bool) : DiskTier :=
  t.updateShard (t.shardOf m.key) fun s => ⟨s.items.insert m.key m, s.dirty || dirty⟩

/-! ## Loading -/

/-- One entry of the index on a start: it is kept if its blob has the recorded size and it fits
its shard; else its blob goes. -/
def loadEntry (t : DiskTier) : DiskTier :=
  match t.blobs.lookup (blobPath m.key) with
  | none => t
  | some b =>
    if (b.body.length : Int) = m.size ∧ m.size ≤ t.cap (t.shardOf m.key) then t.pushFront m false
    else { t with blobs := t.blobs.erase (blobPath m.key) }

/-- `load`: the entries from the last to the first, then each shard is cut to its budget. -/
def load (maxBytes : Int) (blobs : FinMap Str Blob) (index : Option (List ObjectMeta)) : DiskTier :=
  let t := (index.getD []).foldr (loadEntry blobPath) ⟨maxBytes, fun _ => {}, blobs, index, none⟩
  let evicted := (List.range (shardCount maxBytes)).flatMap fun i =>
    victims (t.cap i) 0 (t.shards i).items.entries.reverse
  evicted.foldl (removeLocked blobPath) t

/-! ## Steps -/

def step : DiskStep → DiskTier
  | .drop key => t.removeLocked blobPath key
  | .install m body =>
    let m := { m with size := body.length }
    { t.pushFront m true with blobs := t.blobs.insert (blobPath m.key) ⟨m, body⟩ }
  | .touch key =>
    match (t.shard key).items.lookup key with
    | none => t
    | some m => t.updateShard (t.shardOf key) fun s => { s with items := s.items.insert key m }
  | .vanish file => { t with blobs := t.blobs.erase file }
  | .flushBegin => { t with pending := some (0, []) }
  | .flushShard =>
    match t.pending with
    | none => t
    | some (i, l) =>
      if i < shardCount t.maxBytes then
        { t.updateShard i fun s => { s with dirty := false } with
          pending := some (i + 1, l ++ (t.shards i).items.entries.map fun e => e.2.persisted) }
      else t
  | .flushWrite =>
    match t.pending with
    | some (i, l) =>
      if shardCount t.maxBytes ≤ i then { t with index := some l, pending := none } else t
    | none => t
  | .restart maxBytes => load blobPath maxBytes t.blobs t.index

/-! ## Operations -/

def new (maxBytes : Int) : DiskTier := ⟨maxBytes, fun _ => {}, ∅, none, none⟩

/-- `commit` of a body of `n` bytes: an object that does not fit its shard is discarded; else the
old entry goes, then the least recently used ones until it fits, and the blob is renamed. -/
def commit (body : Str) : List DiskStep :=
  let n : Int := body.length
  let cap := t.cap (t.shardOf m.key)
  if cap < n then []
  else
    let items := (t.shard m.key).items
    (if m.key ∈ items then [DiskStep.drop m.key] else []) ++
      (victims cap n (items.erase m.key).entries.reverse).map DiskStep.drop ++
      [.install m body]

def delete : List DiskStep := [.drop key]

/-- `Get`: a hit is touched; an entry whose blob is gone is dropped. -/
def get : List DiskStep :=
  match (t.shard key).items.lookup key, t.blobs.lookup (blobPath key) with
  | none, _ => []
  | some _, some _ => [.touch key]
  | some _, none => [.touch key, .drop key]

def hit : Option (ObjectMeta × Blob) :=
  match (t.shard key).items.lookup key, t.blobs.lookup (blobPath key) with
  | some m, some b => some (m, b)
  | _, _ => none

def flush (write : Bool) : List DiskStep :=
  .flushBegin :: (List.replicate (shardCount t.maxBytes) .flushShard ++
    if write then [.flushWrite] else [])

def anyDirty : Bool :=
  (List.range (shardCount t.maxBytes)).any fun i => (t.shards i).dirty

def flushIfDirty : List DiskStep := t.flush t.anyDirty

def close : List DiskStep := t.flush true

/-- `Reset`: every object goes, and the emptied index is written if anything changed. -/
def reset : List DiskStep :=
  let keys := (List.range (shardCount t.maxBytes)).flatMap fun i => (t.shards i).items.keys
  keys.map .drop ++ t.flush (t.anyDirty || !keys.isEmpty)

end Files

inductive Op where
  | commit (m : ObjectMeta) (body : Str)
  | delete (key : Str)
  | get (key : Str)
  | flushIfDirty
  | close
  | reset
  | restart (maxBytes : Int)

variable (blobPath : Str → Str) (t : DiskTier)

def Op.steps : Op → List DiskStep
  | .commit m body => t.commit m body
  | .delete key => DiskTier.delete key
  | .get key => DiskTier.get blobPath t key
  | .flushIfDirty => t.flushIfDirty
  | .close => t.close
  | .reset => t.reset
  | .restart maxBytes => [.restart maxBytes]

def apply (op : Op) : DiskTier :=
  Transition.run (step blobPath) t (op.steps blobPath t)

/-! ## Updates -/

theorem shards_updateShard (i j : Nat) (g : DiskShard → DiskShard) :
    (t.updateShard i g).shards j = if j = i then g (t.shards i) else t.shards j := by
  simp only [updateShard, Function.update_apply]

theorem mem_pushFront {t : DiskTier} {m m' : ObjectMeta} {dirty : Bool} {i : Nat} {k : Str}
    (h : m' ∈ ((t.pushFront m dirty).shards i).items.lookup k) :
    (i = t.shardOf m.key ∧ k = m.key ∧ m' = m) ∨
      (¬(i = t.shardOf m.key ∧ k = m.key) ∧ m' ∈ (t.shards i).items.lookup k) := by
  rw [pushFront, shards_updateShard] at h
  split at h
  case isTrue hi =>
    rw [FinMap.lookup_insert_ite] at h
    split at h
    case isTrue hk =>
      cases h
      exact .inl ⟨hi, hk, rfl⟩
    case isFalse hk => exact .inr ⟨fun hik => hk hik.2, hi ▸ h⟩
  case isFalse hi => exact .inr ⟨fun hik => hi hik.1, h⟩

structure Removed (t t' : DiskTier) : Prop where
  maxBytes : t'.maxBytes = t.maxBytes
  index : t'.index = t.index
  pending : t'.pending = t.pending
  blobs : ∀ file, ∀ b ∈ t'.blobs.lookup file, b ∈ t.blobs.lookup file
  items : ∀ i key, ∀ m ∈ (t'.shards i).items.lookup key, m ∈ (t.shards i).items.lookup key

theorem Removed.refl : Removed t t :=
  ⟨rfl, rfl, rfl, fun _ _ h => h, fun _ _ _ h => h⟩

theorem Removed.trans {t t' t'' : DiskTier} (h : Removed t t') (h' : Removed t' t'') : Removed t t'' :=
  ⟨h'.maxBytes.trans h.maxBytes, h'.index.trans h.index, h'.pending.trans h.pending,
    fun file b hb => h.blobs file b (h'.blobs file b hb),
    fun i key m hm => h.items i key m (h'.items i key m hm)⟩

theorem removeLocked_removed (key : Str) :
    Removed t (t.removeLocked blobPath key) := by
  rw [removeLocked]
  split
  · exact .refl t
  refine ⟨rfl, rfl, rfl, fun _ _ h => FinMap.mem_lookup_erase h, fun i k m h => ?_⟩
  rw [shards_updateShard] at h
  split at h
  case isTrue hi => exact hi ▸ FinMap.mem_lookup_erase h
  case isFalse => exact h

/-! ## The tier as a lossy map -/

open Lossy

section Contents

variable (blobPath : Str → Str)

variable (t : DiskTier) (key : Str)

/-- What `Get` hands out: the metadata and the body. -/
def contents : Option Object :=
  (hit blobPath t key).map fun (m, b) => (m, b.body)

theorem mem_contents {t : DiskTier} {key : Str} {x : Object} :
    x ∈ t.contents blobPath key ↔
      x.1 ∈ (t.shard key).items.lookup key ∧
        ∃ b ∈ t.blobs.lookup (blobPath key), b.body = x.2 := by
  obtain ⟨m, body⟩ := x
  rw [contents, hit]
  cases (t.shard key).items.lookup key with
  | none => simp
  | some m' =>
    cases t.blobs.lookup (blobPath key) with
    | none => simp
    | some b => simp

theorem forgets_of_subset {t t' : DiskTier} (hmax : t'.maxBytes = t.maxBytes)
    (hblobs : ∀ file, ∀ b ∈ t'.blobs.lookup file, b ∈ t.blobs.lookup file)
    (hitems : ∀ i key, ∀ m ∈ (t'.shards i).items.lookup key, m ∈ (t.shards i).items.lookup key) :
    Forgets (t.contents blobPath) (t'.contents blobPath) := by
  intro k x hx
  rw [mem_contents] at hx ⊢
  obtain ⟨hm, b, hb, hbody⟩ := hx
  rw [shard, shardOf, hmax] at hm
  exact ⟨hitems _ k _ hm, b, hblobs _ b hb, hbody⟩

theorem Removed.forgets {t t' : DiskTier} (h : Removed t t') :
    Forgets (t.contents blobPath) (t'.contents blobPath) :=
  forgets_of_subset blobPath h.maxBytes h.blobs h.items

theorem shard_eq {t t' : DiskTier} (hmax : t'.maxBytes = t.maxBytes) (key : Str) :
    t'.shard key = t'.shards (t.shardOf key) := by
  rw [shard, shardOf, hmax]
  rfl

theorem lookup_removeLocked_self :
    ((t.removeLocked blobPath key).shard key).items.lookup key = none := by
  rw [shard_eq (removeLocked_removed blobPath t key).maxBytes, removeLocked]
  split
  case h_1 hnone => exact hnone
  case h_2 =>
    rw [shards_updateShard, if_pos rfl, AList.lookup_erase]

theorem contents_removeLocked_self :
    (t.removeLocked blobPath key).contents blobPath key = none := by
  refine Option.eq_none_iff_forall_not_mem.mpr fun x hx => ?_
  have hm := ((mem_contents blobPath).mp hx).1
  rw [lookup_removeLocked_self] at hm
  exact Option.not_mem_none _ hm

theorem drops_removed (keys : List Str) :
    Removed t (Transition.run (step blobPath) t (keys.map .drop)) := by
  induction keys generalizing t with
  | nil => exact .refl t
  | cons key keys ih => exact (removeLocked_removed blobPath t key).trans (ih _)

theorem touch_removed : Removed t (t.step blobPath (.touch key)) := by
  rw [step]
  split
  · exact .refl t
  case h_2 m hm =>
    refine ⟨rfl, rfl, rfl, fun _ _ h => h, fun i k m' hm' => ?_⟩
    rw [shards_updateShard] at hm'
    split at hm'
    case isFalse => exact hm'
    case isTrue hi =>
      rw [FinMap.lookup_insert_ite] at hm'
      split at hm'
      case isFalse => exact hi ▸ hm'
      case isTrue hk =>
        cases hm'
        rw [hi, hk]
        exact hm

theorem get_removed :
    Removed t (Transition.run (step blobPath) t (get blobPath t key)) := by
  rw [get]
  split
  · exact .refl t
  · exact touch_removed blobPath t key
  · exact (touch_removed blobPath t key).trans (removeLocked_removed blobPath _ key)

theorem vanish_removed (file : Str) : Removed t (t.step blobPath (.vanish file)) :=
  ⟨rfl, rfl, rfl, fun _ _ h => FinMap.mem_lookup_erase h, fun _ _ _ h => h⟩

theorem flush_forgets (write : Bool) :
    Forgets (t.contents blobPath)
      ((Transition.run (step blobPath) t (t.flush write)).contents blobPath) := by
  have hsteps : ∀ a ∈ t.flush write, a = .flushBegin ∨ a = .flushShard ∨ a = .flushWrite := by
    intro a ha
    rw [flush, mem_cons, mem_append] at ha
    obtain rfl | ha | ha := ha
    · exact .inl rfl
    · exact .inr (.inl (eq_of_mem_replicate ha))
    · split at ha
      · exact .inr (.inr (mem_singleton.mp ha))
      · cases ha
  generalize t.flush write = steps at hsteps
  induction steps generalizing t with
  | nil => exact .refl _
  | cons a steps ih =>
    obtain ⟨ha, hsteps⟩ := forall_mem_cons.mp hsteps
    refine Forgets.trans ?_ (ih _ hsteps)
    obtain rfl | rfl | rfl := ha
    · exact forgets_of_subset blobPath rfl (fun _ _ h => h) fun _ _ _ h => h
    · rw [step]
      split
      · exact .refl _
      split
      · refine forgets_of_subset blobPath rfl (fun _ _ h => h) fun i k m hm => ?_
        rw [shards_updateShard] at hm
        split at hm
        case isTrue hi => exact hi ▸ hm
        case isFalse => exact hm
      · exact .refl _
    · rw [step]
      split
      · split
        · exact forgets_of_subset blobPath rfl (fun _ _ h => h) fun _ _ _ h => h
        · exact .refl _
      · exact .refl _

variable {blobPath}

theorem install_puts (hinj : Function.Injective blobPath) (t : DiskTier) (m : ObjectMeta)
    (body : Str) :
    Puts m.key (m.with body) (t.contents blobPath)
      ((t.step blobPath (.install m body)).contents blobPath) := by
  refine ⟨?_, fun k hk x hx => ?_⟩
  · refine (mem_contents blobPath).mpr ⟨?_, ⟨(m.with body).1, body⟩, ?_, rfl⟩
    · have hmax : (t.step blobPath (.install m body)).maxBytes = t.maxBytes := rfl
      rw [shard_eq hmax, step]
      dsimp only [pushFront]
      rw [shards_updateShard, if_pos rfl]
      exact AList.lookup_insert _
    · exact AList.lookup_insert _
  · rw [mem_contents] at hx ⊢
    obtain ⟨hm, b, hb, hbody⟩ := hx
    refine ⟨?_, b, ?_, hbody⟩
    · obtain ⟨-, hkey, -⟩ | ⟨-, hold⟩ := mem_pushFront hm
      · exact absurd hkey hk
      · exact hold
    · rwa [step, AList.lookup_insert_ne (hinj.ne hk)] at hb

end Contents

end DiskTier

end Cadish
