import Cadish.Lib.Interference
import Cadish.Cache.DiskFrame
import Cadish.Cache.Orphans

/-!
# A reload over a warm disk tier

A reload opens a second instance of the disk tier on the directory of the one that serves. Its start
reaps temporary files, checks the index and cuts its shards while the warm tier goes on. **If no
writer is in flight when the directory is listed, the index is up to date and fits when it is read,
and nothing is committed that is yet to be checked, the warm tier answers as without the reload**
(`reload_transparent`); else a commit may fail (`reload_fails_commit`).
-/

namespace Cadish

open FileTier List Option Transition AList ObjectMeta

/-- The second instance of the tier, and how far its start is. -/
inductive ColdTier where
  | absent
  | reaping (names : List Nat) (maxBytes : Int)
  | loading (entries : List ObjectMeta) (t : FileTier)
  | removing (m : ObjectMeta) (entries : List ObjectMeta) (t : FileTier)
  | cutting (shards : List Nat) (t : FileTier)
  | opened (t : FileTier)

structure Reload where
  dir : DiskDir
  warm : FileTier
  cold : ColdTier := .absent

inductive ReloadOp where
  | warm (op : FileOp)
  | load (maxBytes : Int)
  | start
  | flush (writes : Bool)
  | close (writes : Bool)

namespace ColdTier

variable (blobPath : Str → Str)

/-- The check of an entry: its blob has the recorded size, and it fits its shard. -/
def passes (d : DiskDir) (t : FileTier) (m : ObjectMeta) : Bool :=
  (d.blobs.lookup (blobPath m.key)).any fun b =>
    decide ((b.body.length : Int) = m.size ∧ m.size ≤ (t.shard m.key).maxBytes)

def next (d : DiskDir) : ColdTier → DiskDir × ColdTier
  | .absent => (d, .absent)
  | .reaping (name :: names) maxBytes => ({ d with temps := d.temps.erase name }, .reaping names maxBytes)
  | .reaping [] maxBytes =>
    -- the index is read
    (d, .loading (d.index.getD []).reverse { maxBytes, shards := newShards maxBytes })
  | .loading (m :: entries) t =>
    if passes blobPath d t m then
      (d, .loading entries (t.setShard (t.shardOf m.key) ((t.shard m.key).pushFront m)))
    else (d, .removing m entries t)
  | .loading [] t => (d, .cutting (List.range (shardCount t.maxBytes)) t)
  | .removing m entries t => ({ d with blobs := d.blobs.erase (blobPath m.key) }, .loading entries t)
  | .cutting (i :: is) t =>
    match DiskRing.round blobPath 0 d.blobs (t.shards i) with
    | none => (d, .cutting is t)
    | some (files, s) => ({ d with blobs := files }, .cutting (i :: is) (t.setShard i s))
  | .cutting [] t => (d, .opened t)
  | .opened t => (d, .opened t)

/-- The budget of a start that is about to read the index. -/
def reads : ColdTier → Option Int
  | .reaping [] maxBytes => some maxBytes
  | _ => none

/-- The entries that the start has read and not checked. -/
def unchecked : ColdTier → List ObjectMeta
  | .loading entries _ => entries
  | .removing m entries _ => m :: entries
  | _ => []

end ColdTier

def FileTier.indexOf (t : FileTier) : List ObjectMeta :=
  (List.range (shardCount t.maxBytes)).flatMap fun i => snapshot (t.shards i)

namespace Reload

variable (blobPath : Str → Str)

def flushed (d : DiskDir) (t : FileTier) (writes : Bool) : DiskDir :=
  if writes then { d with index := some t.indexOf } else d

/-- The effect of a step, and what the warm tier answers; none when an operation does not end. -/
def step (s : Option Reload) (op : ReloadOp) : Option Reload × Option FileAnswer :=
  match s, op with
  | none, _ => (none, none)
  | some s, .warm op =>
    match FileTier.step blobPath (s.dir, s.warm) op with
    | none => (none, none)
    | some ((d, t), a) => (some { s with dir := d, warm := t }, some a)
  | some s, .load maxBytes =>
    match s.cold with
    | .absent => (some { s with cold := .reaping s.dir.temps.keys maxBytes }, none)
    | _ => (some s, none)
  | some s, .start =>
    let (d, c) := ColdTier.next blobPath s.dir s.cold
    (some { s with dir := d, cold := c }, none)
  | some s, .flush writes =>
    match s.cold with
    | .opened t => (some { s with dir := flushed s.dir t writes }, none)
    | _ => (some s, none)
  | some s, .close writes =>
    match s.cold with
    | .opened t => (some { s with dir := flushed s.dir t writes, cold := .absent }, none)
    | _ => (some s, none)

def isWarm : ReloadOp → Bool
  | .warm _ => true
  | _ => false

end Reload

/-! ## An undisturbed start -/

namespace ColdTier

variable {blobPath : Str → Str}

variable {d : DiskDir} {t : FileTier}

theorem passes_iff {m : ObjectMeta} : passes blobPath d t m = true ↔
    ∃ b, d.blobs.lookup (blobPath m.key) = some b ∧ (b.body.length : Int) = m.size ∧
      m.size ≤ (t.shard m.key).maxBytes := by
  rw [passes, Option.any_eq_true]
  simp

/-- A start gets from one point to another, with nothing in between. -/
def Gets (blobPath : Str → Str) : DiskDir × ColdTier → DiskDir × ColdTier → Prop :=
  Relation.ReflTransGen fun p q => next blobPath p.1 p.2 = q

theorem gets_reap (d : DiskDir) (maxBytes : Int) {names : List Nat}
    (hnames : ∀ temp ∈ d.temps, temp ∈ names) :
    Gets blobPath (d, .reaping names maxBytes) ({ d with temps := ∅ }, .reaping [] maxBytes) := by
  induction names generalizing d with
  | nil =>
    have hempty : d.temps = ∅ := by
      refine ext (eq_nil_iff_forall_not_mem.mpr fun e he => ?_)
      exact not_mem_nil (hnames e.1 (List.mem_map_of_mem he))
    rw [← hempty]
    exact .refl
  | cons name names ih =>
    refine .head rfl (ih { d with temps := d.temps.erase name } fun temp htemp => ?_)
    obtain ⟨hne, htemp⟩ := mem_erase.mp htemp
    exact (mem_cons.mp (hnames temp htemp)).resolve_left hne

theorem gets_load (d : DiskDir) (t : FileTier) (l : List ObjectMeta) :
    Gets blobPath (d, .loading l t)
      ((l.foldl (fun w m => loadEntry blobPath m w) (d, t)).1,
        .loading [] (l.foldl (fun w m => loadEntry blobPath m w) (d, t)).2) := by
  induction l generalizing d t with
  | nil => exact .refl
  | cons m l ih =>
    rw [foldl_cons]
    by_cases hpass : passes blobPath d t m = true
    · have hload : loadEntry blobPath m (d, t) =
          (d, t.setShard (t.shardOf m.key) ((t.shard m.key).pushFront m)) := by
        obtain ⟨b, hb, hfits⟩ := passes_iff.mp hpass
        simp only [loadEntry, hb]
        rw [if_pos hfits]
      rw [hload]
      exact .head (by rw [next, if_pos hpass]) (ih _ _)
    · have hload : loadEntry blobPath m (d, t) = ({ d with blobs := d.blobs.erase (blobPath m.key) }, t) := by
        cases hb : d.blobs.lookup (blobPath m.key) with
        | none =>
          simp only [loadEntry, hb]
          rw [FinMap.erase_of_lookup_eq_none hb]
        | some b =>
          simp only [loadEntry, hb]
          rw [if_neg fun hfits => hpass (passes_iff.mpr ⟨b, hb, hfits⟩)]
      rw [hload]
      have hnext : next blobPath d (.loading (m :: l) t) = (d, .removing m l t) := by
        rw [next, if_neg hpass]
      exact .head hnext (.head rfl (ih _ _))

theorem maxBytes_load (l : List ObjectMeta) (w : DiskDir × FileTier) :
    (l.foldl (fun w m => loadEntry blobPath m w) w).2.maxBytes = w.2.maxBytes := by
  induction l generalizing w with
  | nil => rfl
  | cons m l ih => exact (ih _).trans (maxBytes_loadEntry m w)

theorem gets_evict (d : DiskDir) (t : FileTier) {i fuel : Nat} {is : List Nat}
    {files files' : FinMap Str Blob} {s s' : DiskRing}
    (hevict : DiskRing.evict blobPath 0 fuel files s = some (files', s')) :
    Gets blobPath ({ d with blobs := files }, .cutting (i :: is) (t.setShard i s))
      ({ d with blobs := files' }, .cutting is (t.setShard i s')) := by
  have hshard : ∀ s, (t.setShard i s).shards i = s := fun s => by rw [shards_setShard, if_pos rfl]
  refine DiskRing.evict_induction (P := fun _ files s => Gets blobPath
    ({ d with blobs := files }, .cutting (i :: is) (t.setShard i s))
    ({ d with blobs := files' }, .cutting is (t.setShard i s'))) ?_ ?_ hevict
  · intro _ hround
    exact .single (by rw [next, hshard, hround])
  · intro _ files s p hround ih
    refine .head ?_ ih
    rw [next, hshard, hround]
    dsimp only
    rw [setShard_setShard]

theorem gets_cut {d' : DiskDir} {t' : FileTier} {is : List Nat}
    (hcut : cutShards blobPath is (d, t) = some (d', t')) :
    Gets blobPath (d, .cutting is t) (d', .opened t') := by
  induction is generalizing d t with
  | nil =>
    cases hcut
    exact .single rfl
  | cons i is ih =>
    rw [cutShards] at hcut
    split at hcut
    · cases hcut
    case h_2 files s hroom =>
      have hloop := @gets_evict _ d t i _ is _ _ _ _ hroom
      rw [setShard_self] at hloop
      exact hloop.trans (ih hcut)

theorem gets_newDiskTier {d' : DiskDir} {maxBytes : Int}
    (hnew : newDiskTier blobPath maxBytes d = some (d', t)) :
    Gets blobPath (d, .reaping d.temps.keys maxBytes) (d', .opened t) := by
  rw [newDiskTier, ← foldl_reverse] at hnew
  refine (gets_reap d maxBytes fun temp htemp => htemp).trans (.head rfl ?_)
  refine (gets_load _ _ _).trans (.head ?_ (gets_cut hnew))
  rw [next, maxBytes_load]

end ColdTier

/-! ## What a start does no harm to -/

namespace ColdTier

variable (blobPath : Str → Str)

variable {m : ObjectMeta}

def passing (d : DiskDir) (t : FileTier) (i : Nat) : List ObjectMeta → Int
  | [] => 0
  | m :: l => (if t.shardOf m.key = i ∧ passes blobPath d t m then m.size else 0) + passing d t i l

/-- The entries to check are up to date with the warm tier, and the shards take all that pass. -/
structure Takes (d : DiskDir) (warm t : FileTier) (l : List ObjectMeta) : Prop where
  current : ∀ m ∈ l, (warm.entry m.key).isSome → passes blobPath d t m
  room : ∀ i < shardCount t.maxBytes, 0 ≤ (t.shards i).maxBytes →
    (t.shards i).curBytes + passing blobPath d t i l ≤ (t.shards i).maxBytes
  bare : ∀ i < shardCount t.maxBytes, (t.shards i).maxBytes < 0 → (t.shards i).lru = []

instance (d : DiskDir) (warm t : FileTier) (l : List ObjectMeta) : Decidable (Takes blobPath d warm t l) :=
  decidable_of_iff
    ((∀ m ∈ l, (warm.entry m.key).isSome → passes blobPath d t m) ∧
      (∀ i < shardCount t.maxBytes, 0 ≤ (t.shards i).maxBytes →
        (t.shards i).curBytes + passing blobPath d t i l ≤ (t.shards i).maxBytes) ∧
      ∀ i < shardCount t.maxBytes, (t.shards i).maxBytes < 0 → (t.shards i).lru = [])
    ⟨fun h => ⟨h.1, h.2.1, h.2.2⟩, fun h => ⟨h.current, h.room, h.bare⟩⟩

variable {blobPath} {d d' : DiskDir} {warm warm' t : FileTier} {l : List ObjectMeta}

theorem size_nonneg (h : passes blobPath d t m = true) : 0 ≤ m.size := by
  obtain ⟨b, -, hsize, -⟩ := passes_iff.mp h
  exact hsize ▸ Int.natCast_nonneg _

theorem passing_nonneg (d : DiskDir) (t : FileTier) (i : Nat) (l : List ObjectMeta) :
    0 ≤ passing blobPath d t i l := by
  induction l with
  | nil => exact Int.le_refl _
  | cons m l ih =>
    rw [passing]
    split
    case isTrue hpass =>
      have hsize := size_nonneg hpass.2
      omega
    case isFalse => omega

theorem passing_mono (h : ∀ m ∈ l, passes blobPath d' t m = true → passes blobPath d t m = true)
    (i : Nat) : passing blobPath d' t i l ≤ passing blobPath d t i l := by
  induction l with
  | nil => exact Int.le_refl _
  | cons m l ih =>
    obtain ⟨hm, hl⟩ := forall_mem_cons.mp h
    have htail := ih hl
    rw [passing, passing]
    by_cases hpass : t.shardOf m.key = i ∧ passes blobPath d' t m = true
    · rw [if_pos hpass, if_pos ⟨hpass.1, hm hpass.2⟩]
      omega
    rw [if_neg hpass]
    split
    case isTrue hpass' =>
      have hsize := size_nonneg hpass'.2
      omega
    case isFalse => omega

theorem Takes.mono (h : Takes blobPath d warm t l)
    (hfiles : ∀ m ∈ l, d'.blobs.lookup (blobPath m.key) = d.blobs.lookup (blobPath m.key) ∨
      d'.blobs.lookup (blobPath m.key) = none)
    (hentry : ∀ m ∈ l, (warm'.entry m.key).isSome → (warm.entry m.key).isSome ∧
      d'.blobs.lookup (blobPath m.key) = d.blobs.lookup (blobPath m.key)) :
    Takes blobPath d' warm' t l where
  current m hm hres := by
    obtain ⟨hres, hsame⟩ := hentry m hm hres
    rw [passes, hsame]
    exact h.current m hm hres
  room i hi hcap := by
    have hroom := h.room i hi hcap
    have hmono : passing blobPath d' t i l ≤ passing blobPath d t i l := by
      refine passing_mono (fun m hm hpass => ?_) i
      obtain hsame | hgone := hfiles m hm
      · rw [passes, hsame] at hpass
        exact hpass
      · rw [passes, hgone] at hpass
        cases hpass
    omega
  bare := h.bare

theorem passes_pushFront (m m' : ObjectMeta) :
    passes blobPath d (t.setShard (t.shardOf m.key) ((t.shard m.key).pushFront m)) m' =
      passes blobPath d t m' := by
  have hcap : ((t.setShard (t.shardOf m.key) ((t.shard m.key).pushFront m)).shard m'.key).maxBytes =
      (t.shard m'.key).maxBytes := by
    rw [shard, shards_setShard]
    split
    case isTrue hi =>
      exact congrArg (fun i => (t.shards i).maxBytes) hi.symm
    case isFalse => rfl
  rw [passes, passes, hcap]

theorem passing_pushFront (m : ObjectMeta) (i : Nat) (l : List ObjectMeta) :
    passing blobPath d (t.setShard (t.shardOf m.key) ((t.shard m.key).pushFront m)) i l =
      passing blobPath d t i l := by
  induction l with
  | nil => rfl
  | cons m' l ih =>
    rw [passing, ih, passes_pushFront]
    rfl

theorem Takes.push (h : Takes blobPath d warm t (m :: l)) (hpass : passes blobPath d t m = true) :
    Takes blobPath d warm (t.setShard (t.shardOf m.key) ((t.shard m.key).pushFront m)) l where
  current m' hm' hres := by
    rw [passes_pushFront]
    exact h.current m' (mem_cons_of_mem m hm') hres
  room i hi hcap := by
    rw [passing_pushFront]
    rw [shards_setShard] at hcap ⊢
    split at hcap
    case isTrue heq =>
      have hroom := h.room i hi (heq ▸ hcap)
      rw [passing, if_pos ⟨heq.symm, hpass⟩] at hroom
      rw [if_pos heq, shard, ← heq]
      dsimp only [DiskRing.pushFront]
      omega
    case isFalse hne =>
      have hroom := h.room i hi hcap
      rw [passing] at hroom
      rw [if_neg hne]
      omega
  bare i hi hcap := by
    rw [shards_setShard] at hcap ⊢
    split at hcap
    case isTrue heq =>
      -- nothing fits such a shard
      obtain ⟨b, -, -, hfits⟩ := passes_iff.mp hpass
      have hsize := size_nonneg hpass
      have hneg : (t.shard m.key).maxBytes < 0 := hcap
      omega
    case isFalse hne =>
      rw [if_neg hne]
      exact h.bare i hi hcap

theorem Takes.tail (h : Takes blobPath d warm t (m :: l)) :
    Takes blobPath d warm t l where
  current m' hm' := h.current m' (mem_cons_of_mem m hm')
  room i hi hcap := by
    have hroom := h.room i hi hcap
    rw [passing] at hroom
    split at hroom
    case isTrue hpass =>
      have hsize := size_nonneg hpass.2
      omega
    case isFalse => omega
  bare := h.bare

theorem Takes.round (h : Takes blobPath d warm t l) {i : Nat} (hi : i < shardCount t.maxBytes)
    (files : FinMap Str Blob) : DiskRing.round blobPath 0 files (t.shards i) = none := by
  rw [DiskRing.round]
  split
  · rfl
  case isFalse hover =>
    by_cases hcap : 0 ≤ (t.shards i).maxBytes
    · have hroom := h.room i hi hcap
      have hl := @passing_nonneg blobPath d t i l
      omega
    · rw [h.bare i hi (by omega)]
      rfl

/-- The start is at a point from which it removes no file of the warm tier. -/
def Safe (blobPath : Str → Str) (d : DiskDir) (warm : FileTier) : ColdTier → Prop
  | .reaping names _ => names = []
  | .loading l t => Takes blobPath d warm t l
  | .removing m l t => warm.entry m.key = none ∧ Takes blobPath d warm t l
  | .cutting is t => Takes blobPath d warm t [] ∧ ∀ i ∈ is, i < shardCount t.maxBytes
  | _ => True

theorem Safe.served {c : ColdTier} (h : c.Safe blobPath d warm) (hinj : Function.Injective blobPath)
    {new : Option (Str × Blob)} (hframe : Frame blobPath d.blobs d'.blobs warm warm' new)
    (hnew : ∀ p ∈ new, ∀ m ∈ c.unchecked, m.key ≠ p.1) : c.Safe blobPath d' warm' := by
  have hfiles : ∀ m ∈ c.unchecked,
      d'.blobs.lookup (blobPath m.key) = d.blobs.lookup (blobPath m.key) ∨
        d'.blobs.lookup (blobPath m.key) = none := by
    intro m hm
    exact hframe.others _ fun p hp heq => hnew p hp m hm (hinj heq).symm
  have hentry : ∀ m ∈ c.unchecked, (warm'.entry m.key).isSome → (warm.entry m.key).isSome ∧
      d'.blobs.lookup (blobPath m.key) = d.blobs.lookup (blobPath m.key) := by
    intro m hm hres
    obtain ⟨m', hm'⟩ := isSome_iff_exists.mp hres
    obtain ⟨hold, hsame⟩ := hframe.entries m.key (fun p hp heq => hnew p hp m hm heq.symm) m' hm'
    exact ⟨isSome_of_mem hold, hsame⟩
  cases c with
  | absent | opened t => trivial
  | reaping names maxBytes => exact h
  | loading l t => exact Takes.mono h hfiles hentry
  | removing m l t =>
    obtain ⟨-, hfiles⟩ := forall_mem_cons.mp hfiles
    obtain ⟨hgone, hentry⟩ := forall_mem_cons.mp hentry
    refine ⟨?_, h.2.mono hfiles hentry⟩
    rw [← not_isSome_iff_eq_none]
    intro hres
    have hold := (hgone hres).1
    rw [h.1] at hold
    cases hold
  | cutting is t => exact ⟨h.1.mono (fun _ hm => absurd hm not_mem_nil)
      fun _ hm => absurd hm not_mem_nil, h.2⟩

theorem Safe.next {c : ColdTier} (h : c.Safe blobPath d warm) (hinj : Function.Injective blobPath)
    (hread : ∀ maxBytes ∈ c.reads,
      Takes blobPath d warm { maxBytes, shards := newShards maxBytes } (d.index.getD []).reverse) :
    (c.next blobPath d).2.Safe blobPath (c.next blobPath d).1 warm ∧
      (c.next blobPath d).1.temps = d.temps ∧
      ∀ key, (warm.entry key).isSome →
        (c.next blobPath d).1.blobs.lookup (blobPath key) = d.blobs.lookup (blobPath key) := by
  cases c with
  | absent | opened t => exact ⟨trivial, rfl, fun _ _ => rfl⟩
  | reaping names maxBytes =>
    obtain rfl : names = [] := h
    exact ⟨hread maxBytes rfl, rfl, fun _ _ => rfl⟩
  | loading l t =>
    cases l with
    | nil => exact ⟨⟨h, fun i hi => mem_range.mp hi⟩, rfl, fun _ _ => rfl⟩
    | cons m l =>
      have htakes : Takes blobPath d warm t (m :: l) := h
      rw [ColdTier.next]
      split
      case isTrue hpass => exact ⟨htakes.push hpass, rfl, fun _ _ => rfl⟩
      case isFalse hfail =>
        refine ⟨⟨?_, htakes.tail⟩, rfl, fun _ _ => rfl⟩
        rw [← not_isSome_iff_eq_none]
        exact fun hres => hfail (htakes.current m mem_cons_self hres)
  | removing m l t =>
    obtain ⟨hgone, htakes⟩ := h
    have hother : ∀ key, (warm.entry key).isSome → blobPath key ≠ blobPath m.key := by
      rintro key hres heq
      rw [hinj heq, hgone] at hres
      cases hres
    refine ⟨htakes.mono (fun m' _ => ?_) fun m' _ hres => ⟨hres, ?_⟩, rfl, fun key hres => ?_⟩
    · rw [ColdTier.next, FinMap.lookup_erase_ite]
      split
      · exact .inr rfl
      · exact .inl rfl
    · exact lookup_erase_ne (hother m'.key hres)
    · exact lookup_erase_ne (hother key hres)
  | cutting is t =>
    cases is with
    | nil => exact ⟨trivial, rfl, fun _ _ => rfl⟩
    | cons i is =>
      obtain ⟨htakes, his⟩ := h
      obtain ⟨hi, his⟩ := forall_mem_cons.mp his
      rw [ColdTier.next, htakes.round hi]
      exact ⟨⟨htakes, his⟩, rfl, fun _ _ => rfl⟩

end ColdTier

/-! ## Runs -/

structure FileTier.Running (blobPath : Str → Str) (d : DiskDir) (t : FileTier) : Prop where
  ok : t.Ok
  keyed : ∀ key, ∀ m ∈ t.entry key, m.key = key
  blobs : ∀ key, ∀ m ∈ t.entry key, blobPath key ∈ d.blobs
  temps : Tidy d t

theorem FileTier.Running.new (blobPath : Str → Str) (maxBytes : Int) :
    Running blobPath {} { maxBytes, shards := newShards maxBytes } where
  ok := ⟨DiskRing.InStep.new maxBytes, fun _ _ => Int.le_max_right _ _⟩
  keyed _ _ hm := absurd hm (not_mem_none _)
  blobs _ _ hm := absurd hm (not_mem_none _)
  temps temp := iff_of_false (notMem_empty temp) (notMem_empty temp)

theorem FileTier.newDiskTier_writers {blobPath : Str → Str} {maxBytes : Int} {d : DiskDir}
    {w : DiskDir × FileTier} (hnew : newDiskTier blobPath maxBytes d = some w) : w.2.writers = ∅ := by
  have hload : ∀ (l : List ObjectMeta) (w : DiskDir × FileTier), w.2.writers = ∅ →
      (l.foldr (loadEntry blobPath) w).2.writers = ∅ := by
    intro l w hw
    induction l with
    | nil => exact hw
    | cons m l ih =>
      rw [foldr_cons]
      simp only [loadEntry]
      split
      · exact ih
      · split <;> exact ih
  have hcut : ∀ (is : List Nat) (d : DiskDir) (t : FileTier), t.writers = ∅ →
      ∀ w ∈ cutShards blobPath is (d, t), w.2.writers = ∅ := by
    intro is
    induction is with
    | nil =>
      rintro d t ht w hw
      cases hw
      exact ht
    | cons i is ih =>
      intro d t ht w hw
      rw [cutShards] at hw
      split at hw
      · cases hw
      case h_2 files s _ => exact ih { d with blobs := files } (t.setShard i s) ht w hw
  exact hcut _ _ _ (hload _ _ rfl) w hnew

theorem FileTier.newDiskTier_running {blobPath : Str → Str} (hinj : Function.Injective blobPath)
    {maxBytes : Int} {d : DiskDir} (hkeys : ((d.index.getD []).map key).Nodup) :
    ∃ d' t, newDiskTier blobPath maxBytes d = some (d', t) ∧ Running blobPath d' t := by
  obtain ⟨⟨d', t⟩, hnew, hok⟩ := newDiskTier_ok blobPath (IndexOk.of_nodup hkeys) maxBytes
  have hsettled := newDiskTier_settled hinj hkeys hnew
  refine ⟨d', t, hnew, hok, fun key m hm => (hsettled.read key m hm).2, fun key m hm => ?_,
    fun temp => ?_⟩
  · obtain ⟨b, hb, -⟩ := hsettled.paired key m hm
    exact lookup_isSome.mp (isSome_of_mem hb)
  · rw [hsettled.temps, newDiskTier_writers hnew]
    exact iff_of_false (notMem_empty temp) (notMem_empty temp)

namespace Reload

variable {blobPath : Str → Str}

variable {s s' : Reload}

/-- A step that does no harm: the warm tier does not restart, and commits nothing whose entry the
start of the cold one is yet to check; no writer is in flight when the directory is listed; and the
index is up to date, and fits the new budget, when it is read. -/
def Harmless (blobPath : Str → Str) (s : Reload) : ReloadOp → Prop
  | .warm (.restart _) => False
  | .warm (.commit temp _) =>
    ∀ wr ∈ s.warm.writers.lookup temp, ∀ m ∈ s.cold.unchecked, m.key ≠ wr.objectMeta.key
  | .load _ => s.warm.writers.keys = []
  | .start =>
    ∀ maxBytes ∈ s.cold.reads,
      ColdTier.Takes blobPath s.dir s.warm { maxBytes, shards := newShards maxBytes }
        (s.dir.index.getD []).reverse
  | _ => True

structure Alike (blobPath : Str → Str) (s s' : Reload) : Prop where
  warm : s'.warm = s.warm
  running : s.warm.Running blobPath s.dir
  serves : Serves blobPath s.warm s.dir s'.dir
  temps : Tidy s'.dir s.warm
  safe : s.cold.Safe blobPath s.dir s.warm
  alone : s'.cold = .absent

theorem Alike.self (h : s.warm.Running blobPath s.dir) (hcold : s.cold = .absent) :
    Alike blobPath s s where
  warm := rfl
  running := h
  serves := by
    refine ⟨fun key m hm => ?_, fun temp htemp => ?_⟩
    · obtain ⟨b, hb⟩ := isSome_iff_exists.mp (lookup_isSome.mpr (h.blobs key m hm))
      exact ⟨b, hb, hb⟩
    · obtain ⟨body, hbody⟩ := isSome_iff_exists.mp (lookup_isSome.mpr ((h.temps temp).mpr htemp))
      exact ⟨body, hbody, hbody⟩
  temps := h.temps
  safe := by rw [hcold]; trivial
  alone := hcold

section

variable (h : Alike blobPath s s')

include h

theorem Alike.serve (hinj : Function.Injective blobPath) {op : FileOp}
    (hop : Harmless blobPath s (.warm op)) :
    ∃ u u' a, step blobPath (some s) (.warm op) = (some u, some a) ∧
      step blobPath (some s') (.warm op) = (some u', some a) ∧ Alike blobPath u u' := by
  have hrestart : ∀ n, op ≠ .restart n := by
    rintro n rfl
    exact hop
  have hstart : StartOk (s.dir, s.warm) op := by
    cases op with
    | restart n => exact absurd rfl (hrestart n)
    | _ => trivial
  obtain ⟨⟨d, t⟩, a, hstep, hok⟩ := step_ok blobPath h.running.ok s.dir hstart
  have hname : ∀ temp m, op = .create temp m → (temp ∈ s.dir.temps ↔ temp ∈ s'.dir.temps) :=
    fun temp _ _ => (h.running.temps temp).trans (h.temps temp).symm
  obtain ⟨d', hstep', hserves⟩ := step_agrees hinj h.running.ok h.serves hrestart hname hstep
  have hframe := step_frame hinj h.running.ok hrestart hstep
  refine ⟨{ s with dir := d, warm := t }, { s' with dir := d', warm := t }, a, ?_, ?_, ?_⟩
  · rw [step, hstep]
  · rw [step, h.warm, hstep']
  have hnew : ∀ p ∈ installed s.dir s.warm op a, ∀ m ∈ s.cold.unchecked, m.key ≠ p.1 := by
    intro p hp
    cases op with
    | commit temp renames =>
      obtain ⟨wr, hwr, hput⟩ := bind_eq_some_iff.mp hp
      rw [committed_key hput]
      exact hop wr hwr
    | _ => exact absurd hp (not_mem_none _)
  refine ⟨rfl, ⟨hok, fun key m hm => ?_, fun key m hm => ?_, ?_⟩, hserves, ?_, ?_, h.alone⟩
  · by_cases hput : ∃ p ∈ installed s.dir s.warm op a, p.1 = key
    · obtain ⟨p, hp, rfl⟩ := hput
      exact hframe.keyed p hp m hm
    · have hold := (hframe.entries key (fun p hp heq => hput ⟨p, hp, heq⟩) m hm).1
      exact h.running.keyed key m hold
  · obtain ⟨b, hb, -⟩ := hserves.blobs key m hm
    exact lookup_isSome.mp (isSome_of_mem hb)
  · exact step_tidy h.running.temps hrestart hstep
  · exact step_tidy h.temps hrestart hstep'
  · exact h.safe.served hinj hframe hnew

theorem Alike.replace {d : DiskDir} {c : ColdTier} (hsafe : c.Safe blobPath d s.warm)
    (htemps : d.temps = s.dir.temps)
    (hblobs : ∀ key, (s.warm.entry key).isSome → d.blobs.lookup (blobPath key) = s.dir.blobs.lookup (blobPath key)) :
    Alike blobPath { s with dir := d, cold := c } s' := by
  refine ⟨h.warm, ⟨h.running.ok, h.running.keyed, fun key m hm => ?_, ?_⟩, ⟨fun key m hm => ?_, ?_⟩,
    h.temps, hsafe, h.alone⟩
  · rw [← lookup_isSome, hblobs key (isSome_of_mem hm), lookup_isSome]
    exact h.running.blobs key m hm
  · rw [Tidy, htemps]
    exact h.running.temps
  · rw [hblobs key (isSome_of_mem hm)]
    exact h.serves.blobs key m hm
  · rw [htemps]
    exact h.serves.temps

theorem Alike.flushed {c : ColdTier} (hsafe : ∀ d, c.Safe blobPath d s.warm) (t : FileTier)
    (writes : Bool) : Alike blobPath { s with dir := flushed s.dir t writes, cold := c } s' := by
  cases writes with
  | true | false => exact h.replace (hsafe _) rfl fun _ _ => rfl

theorem Alike.reload (hinj : Function.Injective blobPath) {op : ReloadOp}
    (hcold : isWarm op = false) (hop : Harmless blobPath s op) :
    ∃ u, step blobPath (some s) op = (some u, none) ∧ Alike blobPath u s' := by
  cases op with
  | warm op => cases hcold
  | load maxBytes =>
    cases hphase : s.cold with
    | absent =>
      refine ⟨{ s with cold := .reaping s.dir.temps.keys maxBytes }, by rw [step, hphase],
        h.replace ?_ rfl fun _ _ => rfl⟩
      -- the temporary files are those of the writers, and there are none
      refine eq_nil_iff_forall_not_mem.mpr fun temp htemp => ?_
      have hwriter := (h.running.temps temp).mp htemp
      rw [AList.mem_keys, show s.warm.writers.keys = [] from hop] at hwriter
      exact not_mem_nil hwriter
    | reaping | loading | removing | cutting | opened => exact ⟨s, by rw [step, hphase], h⟩
  | start =>
    obtain ⟨hsafe, htemps, hblobs⟩ := h.safe.next hinj hop
    exact ⟨_, rfl, h.replace hsafe htemps hblobs⟩
  | flush writes =>
    cases hphase : s.cold with
    | opened t =>
      refine ⟨{ s with dir := Reload.flushed s.dir t writes }, by rw [step, hphase], ?_⟩
      exact h.flushed (fun _ => by rw [hphase]; trivial) t writes
    | absent | reaping | loading | removing | cutting => exact ⟨s, by rw [step, hphase], h⟩
  | close writes =>
    cases hphase : s.cold with
    | opened t =>
      refine ⟨{ s with dir := Reload.flushed s.dir t writes, cold := .absent }, by rw [step, hphase], ?_⟩
      exact h.flushed (c := .absent) (fun _ => trivial) t writes
    | absent | reaping | loading | removing | cutting => exact ⟨s, by rw [step, hphase], h⟩

end

end Reload

/-! ## A clean `Close` -/

namespace FileTier

variable {blobPath : Str → Str} {d : DiskDir} {t : FileTier}

/-- `Close`: every shard is taken, and the index is written. -/
def closeOps (t : FileTier) : List FileOp :=
  .flushBegin :: (List.replicate (shardCount t.maxBytes) .flushShard ++ [.flushWrite true])

theorem run_flushShard (d : DiskDir) (t : FileTier) {n : Nat} (hn : n ≤ shardCount t.maxBytes) :
    ∃ u, run (next blobPath) (some (d, { t with pending := some (0, []) }))
        (replicate n .flushShard) = some (d, u) ∧ u.maxBytes = t.maxBytes ∧
      u.pending = some (n, (range n).flatMap fun i => snapshot (t.shards i)) ∧
      ∀ i, snapshot (u.shards i) = snapshot (t.shards i) := by
  induction n with
  | zero => exact ⟨_, rfl, rfl, rfl, fun _ => rfl⟩
  | succ n ih =>
    obtain ⟨u, hrun, hmax, hpending, hsnap⟩ := ih (Nat.le_of_lt hn)
    refine ⟨{ u.setShard n { u.shards n with dirty := false } with
      pending := some (n + 1, (range n).flatMap (fun i => snapshot (t.shards i)) ++
        snapshot (u.shards n)) }, ?_, hmax, ?_, fun i => ?_⟩
    · rw [replicate_succ', run_append, hrun, run_cons, next, bind_some]
      simp only [step, hpending]
      rw [if_pos (hmax ▸ hn)]
      rfl
    · rw [range_succ, flatMap_append, flatMap_singleton, hsnap]
    · rw [shards_setShard, ← hsnap i]
      split
      case isTrue hi => rw [hi]; rfl
      case isFalse => rfl

theorem run_close (h : t.InStep) (hkeyed : ∀ key, ∀ m ∈ t.entry key, m.key = key)
    (hclean : ∀ key, ∀ _ ∈ t.entry key, toValidUTF8 0 key = key) (d : DiskDir) :
    ∃ u l, run (next blobPath) (some (d, t)) t.closeOps = some ({ d with index := some l }, u) ∧
      (l.map key).Perm ((residents t.maxBytes t.shelves).map Sigma.fst) := by
  obtain ⟨u, hrun, hmax, hpending, -⟩ := @run_flushShard blobPath d t _ (Nat.le_refl _)
  refine ⟨{ u with pending := none }, t.indexOf, ?_, ?_⟩
  · rw [closeOps, run_cons, run_append]
    have hbegin : next blobPath (some (d, t)) .flushBegin =
        some (d, { t with pending := some (0, []) }) := rfl
    rw [hbegin, hrun, run_cons, next, bind_some]
    simp only [step, hpending, hmax]
    rw [if_neg (Nat.lt_irrefl _)]
    rfl
  · rw [indexOf, residents, map_flatMap, map_flatMap]
    refine List.Perm.flatMap_left _ fun i hi => ?_
    -- the snapshot names the keys of the list
    have hnames : (snapshot (t.shards i)).map key = (t.shards i).lru := by
      rw [snapshot, map_filterMap]
      refine (filterMap_congr fun key hkey => ?_).trans filterMap_some
      have hmem := (h i).ledger.mem_iff.mp hkey
      obtain ⟨m, hm⟩ := isSome_iff_exists.mp (lookup_isSome.mpr hmem)
      have hentry : m ∈ t.entry key := by
        rw [entry, shard, shardOf, (h i).home key hmem]
        exact hm
      rw [hm]
      dsimp [persisted]
      rw [hkeyed key m hentry, hclean key m hentry]
    rw [hnames]
    exact (h i).ledger.order

end FileTier

namespace Reload

variable {blobPath : Str → Str}

open Interference

def AlikeStates (blobPath : Str → Str) (s s' : Option Reload) : Prop :=
  ∃ u u', s = some u ∧ s' = some u' ∧ Alike blobPath u u'

/-- **A reload is transparent to the warm tier.** For every tier that serves, and every run of its
operations with reloads among them whose steps are all harmless: the warm tier answers as in the run
without the reloads, and ends in the same state; each of its objects is read with the bytes that it
has in that run, and each of its writers can commit; and if its keys are valid UTF-8, a clean `Close`
leaves an index that names its objects. -/
theorem reload_transparent (hinj : Function.Injective blobPath) {d : DiskDir} {t : FileTier}
    (ht : t.Running blobPath d) (ops : List ReloadOp)
    (hops : Transition.Meets (next (step blobPath))
      (fun s op => ∀ u ∈ s, Harmless blobPath u op) (some { dir := d, warm := t }) ops) :
    ∃ s s', run (next (step blobPath)) (some { dir := d, warm := t }) ops = some s ∧
      run (next (step blobPath)) (some { dir := d, warm := t })
        (ops.filter isWarm) = some s' ∧
      outcomes (step blobPath) isWarm (some { dir := d, warm := t }) ops =
        outcomes (step blobPath) isWarm (some { dir := d, warm := t }) (ops.filter isWarm) ∧
      s.warm = s'.warm ∧
      (∀ key, ∀ m ∈ s.warm.entry key, ∃ b, s'.dir.blobs.lookup (blobPath key) = some b ∧
        (FileTier.get blobPath s.dir s.warm key).2 = .found (some (m, b.body))) ∧
      (∀ temp ∈ s.warm.writers, ∃ w installed,
        FileTier.step blobPath (s.dir, s.warm) (.commit temp true) = some (w, .stored installed)) ∧
      ((∀ key, ∀ _ ∈ s.warm.entry key, toValidUTF8 0 key = key) →
        ∃ u l, run (FileTier.next blobPath) (some (s.dir, s.warm)) s.warm.closeOps =
            some ({ s.dir with index := some l }, u) ∧
          (l.map key).Perm
            ((residents s.warm.maxBytes s.warm.shelves).map Sigma.fst)) := by
  have hkeep : ∀ s s' op, AlikeStates blobPath s s' → (∀ u ∈ s, Harmless blobPath u op) →
      isWarm op = true → AlikeStates blobPath (next (step blobPath) s op)
        (next (step blobPath) s' op) ∧
        (isWarm op = true → (step blobPath s op).2 = (step blobPath s' op).2) := by
    rintro s s' op ⟨u, u', rfl, rfl, halike⟩ hop hwarm
    cases op with
    | warm op =>
      obtain ⟨v, v', a, hstep, hstep', halike⟩ := halike.serve hinj (hop u rfl)
      refine ⟨⟨v, v', congrArg Prod.fst hstep, congrArg Prod.fst hstep', halike⟩, fun _ => ?_⟩
      rw [hstep, hstep']
    | load | start | flush | close => cases hwarm
  have hdrop : ∀ s s' op, AlikeStates blobPath s s' → (∀ u ∈ s, Harmless blobPath u op) →
      isWarm op = false → AlikeStates blobPath (next (step blobPath) s op) s' ∧
        isWarm op = false := by
    rintro s s' op ⟨u, u', rfl, rfl, halike⟩ hop hcold
    obtain ⟨v, hstep, halike⟩ := halike.reload hinj hcold (hop u rfl)
    exact ⟨⟨v, u', congrArg Prod.fst hstep, rfl, halike⟩, hcold⟩
  have hstart : AlikeStates blobPath (some { dir := d, warm := t }) (some { dir := d, warm := t }) :=
    ⟨_, _, rfl, rfl, .self ht rfl⟩
  have hdrops := drops_filter isWarm ops
  have hops' : Transition.Meets (next (step blobPath)) (fun _ op => isWarm op = true)
      (some { dir := d, warm := t }) (ops.filter isWarm) :=
    meets_of_mem _ fun op hop => (mem_filter.mp hop).2
  obtain ⟨s, s', hs, hs', halike⟩ := run_related (fun s s' op hR hop hop' => (hkeep s s' op hR hop hop').1)
    (fun s s' op hR hop hcold => (hdrop s s' op hR hop hcold).1) hstart hdrops hops hops'
  refine ⟨s, s', hs, hs', outcomes_eq hkeep hdrop hstart hdrops hops hops', halike.warm.symm,
    fun key m hm => ?_, fun temp htemp => ?_, fun hclean => ?_⟩
  · obtain ⟨b, hb, hb'⟩ := halike.serves.blobs key m hm
    have hlookup : (s.warm.shards (s.warm.shardOf key)).items.lookup key = some m := hm
    refine ⟨b, hb', ?_⟩
    simp only [FileTier.get, hlookup, hb]
  · obtain ⟨wr, hwr⟩ := isSome_iff_exists.mp (lookup_isSome.mpr htemp)
    obtain ⟨body, hbody, -⟩ := halike.serves.temps temp htemp
    simp only [FileTier.step, hwr]
    obtain hrefused | ⟨files, r, -, ⟨_, -, -, hstored⟩ | ⟨hgone | hgone, -⟩⟩ :=
      commit_cases (t := { s.warm with writers := s.warm.writers.erase temp }) hinj halike.running.ok
        s.dir temp wr true
    · exact ⟨_, _, hrefused⟩
    · exact ⟨_, _, hstored⟩
    · rw [hbody] at hgone
      cases hgone
    · cases hgone
  · exact run_close halike.running.ok.1 halike.running.keyed hclean s.dir

instance (blobPath : Str → Str) (s : Reload) (op : ReloadOp) : Decidable (Harmless blobPath s op) :=
  match op with
  | .warm (.restart _) => inferInstanceAs (Decidable False)
  | .warm (.commit temp _) => inferInstanceAs (Decidable
      (∀ wr ∈ s.warm.writers.lookup temp, ∀ m ∈ s.cold.unchecked, m.key ≠ wr.objectMeta.key))
  | .warm (.create _ _) | .warm (.write _ _) | .warm (.abort _) | .warm (.get _) | .warm (.delete _)
  | .warm (.resetShard _) | .warm .flushBegin | .warm .flushShard | .warm (.flushWrite _)
  | .flush _ | .close _ => inferInstanceAs (Decidable True)
  | .load _ => inferInstanceAs (Decidable (s.warm.writers.keys = []))
  | .start => inferInstanceAs (Decidable (∀ maxBytes ∈ s.cold.reads,
      ColdTier.Takes blobPath s.dir s.warm { maxBytes, shards := newShards maxBytes }
        (s.dir.index.getD []).reverse))

def flushedReload : List ReloadOp :=
  [.warm (.create 0 { key := lit "/a" }), .warm (.write 0 [1]), .warm (.commit 0 true), .warm .flushBegin,
    .warm .flushShard, .warm (.flushWrite true), .load 100, .start, .start, .start, .start, .start,
    .warm (.get (lit "/a")), .close true]

theorem reload_transparent_flushed :
    ∃ s s', run (next (step id))
        (some { dir := {}, warm := { maxBytes := 100, shards := newShards 100 } }) flushedReload = some s ∧
      run (next (step id))
        (some { dir := {}, warm := { maxBytes := 100, shards := newShards 100 } })
        (flushedReload.filter isWarm) = some s' ∧ s.warm = s'.warm ∧
      ∀ key, ∀ m ∈ s.warm.entry key, ∃ b, s'.dir.blobs.lookup key = some b ∧
        (FileTier.get id s.dir s.warm key).2 = .found (some (m, b.body)) := by
  obtain ⟨s, s', hrun, hrun', -, hwarm, hread, -⟩ :=
    reload_transparent Function.injective_id (.new id 100) flushedReload (by decide)
  exact ⟨s, s', hrun, hrun', hwarm, hread⟩

def midWriteReload : List ReloadOp :=
  [.warm (.create 0 { key := lit "/a" }), .warm (.write 0 [1]), .load 100, .start, .start,
    .warm (.commit 0 true)]

/-- **A reload fails a commit.** The file of a writer in flight is reaped. -/
theorem reload_fails_commit :
    ¬ ∀ (blobPath : Str → Str), Function.Injective blobPath → ∀ (d : DiskDir) (t : FileTier),
      t.Running blobPath d → ∀ ops : List ReloadOp, (∀ n, .warm (.restart n) ∉ ops) →
      outcomes (step blobPath) isWarm (some { dir := d, warm := t }) ops =
        outcomes (step blobPath) isWarm (some { dir := d, warm := t }) (ops.filter isWarm) := by
  intro h
  have hsame := h id Function.injective_id {} _ (.new id 100) midWriteReload (fun n hn => ?_)
  · have hdiffer : outcomes (step id) isWarm
          (some { dir := {}, warm := { maxBytes := 100, shards := newShards 100 } }) midWriteReload ≠
        outcomes (step id) isWarm
          (some { dir := {}, warm := { maxBytes := 100, shards := newShards 100 } })
          (midWriteReload.filter isWarm) := by decide
    exact hdiffer hsame
  · simp [midWriteReload] at hn

end Reload

end Cadish
