import Cadish.Cache.Disk

/-!
# Crashes of the disk tier

An entry should pair a blob with the metadata of the commit that wrote it, but the index that is
read back may be older than the blobs, and only the recorded size tells them apart. A restart is
faithful (`restart_faithful`), **unless a blob was renamed over one of the same size that the index
describes** (`restart_mixes_generations`).
-/

namespace Cadish

open List DiskTier ObjectMeta

namespace DiskTier

open Transition

variable {blobPath : Str → Str}

variable {blobs : FinMap Str Blob} {m : ObjectMeta} {t t' : DiskTier} {index : Option (List ObjectMeta)}
  {maxBytes : Int}

variable (blobPath blobs m) in
def Describes : Prop :=
  ∀ b ∈ blobs.lookup (blobPath m.key), (b.body.length : Int) = m.size → m = b.writtenBy.unplaced

/-- What holds of an entry in memory: it is in the shard of its key, the index file can reproduce
it, and it is the metadata of the blob that is there. -/
structure Holds (blobPath : Str → Str) (t : DiskTier) (i : Nat) (key : Str) (m : ObjectMeta) :
    Prop where
  keyed : m.key = key
  shard : t.shardOf key = i
  clean : m.Clean
  blob : ∀ b ∈ t.blobs.lookup (blobPath key), m.unplaced = b.writtenBy.unplaced

structure Inv (blobPath : Str → Str) (t : DiskTier) : Prop where
  blobs : ∀ file, ∀ b ∈ t.blobs.lookup file, b.writtenBy.Clean
  index : ∀ m ∈ t.index.getD [], Describes blobPath t.blobs m
  indexKeys : ((t.index.getD []).map key).Nodup
  pending : ∀ i l, t.pending = some (i, l) → ∀ m ∈ l, Describes blobPath t.blobs m
  pendingKeys : ∀ i l, t.pending = some (i, l) → (l.map key).Nodup
  pendingShards : ∀ i l, t.pending = some (i, l) → ∀ m ∈ l, t.shardOf m.key < i
  items : ∀ i key, ∀ m ∈ (t.shards i).items.lookup key, Holds blobPath t i key m

structure Paired (blobPath : Str → Str) (t : DiskTier) (i : Nat) (key : Str) (m : ObjectMeta)
    (b : Blob) : Prop where
  keyed : m.key = key
  shard : t.shardOf key = i
  blob : t.blobs.lookup (blobPath key) = some b
  size : (b.body.length : Int) = m.size
  writtenBy : m = b.writtenBy.unplaced

/-- Every entry in memory pairs a blob with its own metadata. -/
def Faithful (blobPath : Str → Str) (t : DiskTier) : Prop :=
  ∀ i key, ∀ m ∈ (t.shards i).items.lookup key, ∃ b, Paired blobPath t i key m b

/-- A step may be taken: a commit has metadata that the index file can reproduce, and neither the
index file nor a flush under way has an entry of its key and its size that says otherwise. -/
def StepOk (t : DiskTier) : DiskStep → Prop
  | .install m body =>
    m.Clean ∧ ∀ m' ∈ t.index.getD [] ++ (t.pending.map Prod.snd).getD [], m'.key = m.key →
      m'.size = body.length → m' = { m with size := body.length }.unplaced
  | _ => True

instance (t : DiskTier) (a : DiskStep) : Decidable (t.StepOk a) :=
  match a with
  | .install _ _ => inferInstanceAs (Decidable (_ ∧ ∀ m' ∈ _, _))
  | .drop _ | .touch _ | .vanish _ | .flushBegin | .flushShard | .flushWrite | .restart _ =>
    inferInstanceAs (Decidable True)

/-! ## Updates -/

theorem Describes.mono {blobs' : FinMap Str Blob} (h : Describes blobPath blobs m)
    (hsub : ∀ file, ∀ b ∈ blobs'.lookup file, b ∈ blobs.lookup file) : Describes blobPath blobs' m :=
  fun b hb hsize => h b (hsub _ b hb) hsize

theorem Holds.of_eq {i : Nat} {key : Str} (h : Holds blobPath t i key m)
    (hmax : t'.maxBytes = t.maxBytes) (hblobs : t'.blobs = t.blobs) : Holds blobPath t' i key m :=
  ⟨h.keyed, by rw [shardOf, hmax]; exact h.shard, h.clean, hblobs ▸ h.blob⟩

theorem Inv.removed (h : Inv blobPath t) (hr : Removed t t') : Inv blobPath t' := by
  have hshard (key : Str) : t'.shardOf key = t.shardOf key := by rw [shardOf, shardOf, hr.maxBytes]
  refine ⟨fun file b hb => h.blobs file b (hr.blobs file b hb), ?_, ?_, ?_, ?_, ?_, ?_⟩
  · rw [hr.index]
    exact fun m hm => (h.index m hm).mono hr.blobs
  · rw [hr.index]
    exact h.indexKeys
  · rw [hr.pending]
    exact fun i l hl m hm => (h.pending i l hl m hm).mono hr.blobs
  · rw [hr.pending]
    exact h.pendingKeys
  · rw [hr.pending]
    exact fun i l hl m hm => (hshard m.key).symm ▸ h.pendingShards i l hl m hm
  · intro i key m hm
    obtain ⟨hkey, hi, hclean, hblob⟩ := h.items i key m (hr.items i key m hm)
    exact ⟨hkey, (hshard key).trans hi, hclean, fun b hb => hblob b (hr.blobs _ b hb)⟩

/-! ## A restart -/

theorem Faithful.removeLocked (hinj : Function.Injective blobPath) (h : Faithful blobPath t) (key : Str) :
    Faithful blobPath (t.removeLocked blobPath key) := by
  intro i k m hm
  have hr := removeLocked_removed blobPath t key
  obtain ⟨b, hkeyed, hshard, hblob, hsize, hby⟩ := h i k m (hr.items i k m hm)
  have hshard' : (t.removeLocked blobPath key).shardOf k = i := by
    rw [shardOf, hr.maxBytes]
    exact hshard
  refine ⟨b, hkeyed, hshard', ?_, hsize, hby⟩
  rw [DiskTier.removeLocked] at hm ⊢
  split at hm
  · exact hblob
  -- the entry that goes is the only one of its key
  have hne : k ≠ key := by
    rintro rfl
    rw [shards_updateShard, if_pos hshard.symm, AList.lookup_erase] at hm
    cases hm
  rw [AList.lookup_erase_ne (hinj.ne hne)]
  exact hblob

structure Loaded (blobPath : Str → Str) (maxBytes : Int) (blobs : FinMap Str Blob)
    (index : Option (List ObjectMeta)) (l : List ObjectMeta) (t : DiskTier) : Prop where
  maxBytes : t.maxBytes = maxBytes
  index : t.index = index
  pending : t.pending = none
  blobs : ∀ file, ∀ b ∈ t.blobs.lookup file, b ∈ blobs.lookup file
  read : ∀ i key, ∀ m ∈ (t.shards i).items.lookup key, m ∈ l
  faithful : Faithful blobPath t

section

variable (hinj : Function.Injective blobPath)

include hinj

theorem loadEntry_loaded {l : List ObjectMeta} (h : Loaded blobPath maxBytes blobs index l t)
    (hm : Describes blobPath blobs m) (hnew : m.key ∉ l.map key) :
    Loaded blobPath maxBytes blobs index (m :: l) (loadEntry blobPath m t) := by
  -- an entry that was read before has another key, and so another file
  have hother : ∀ i k, ∀ m' ∈ (t.shards i).items.lookup k, k ≠ m.key := by
    rintro i k m' hm' rfl
    obtain ⟨b, hp⟩ := h.faithful i _ m' hm'
    exact hnew (List.mem_map.mpr ⟨m', h.read i _ m' hm', hp.keyed⟩)
  have hread : ∀ i k, ∀ m' ∈ (t.shards i).items.lookup k, m' ∈ m :: l :=
    fun i k m' hm' => mem_cons_of_mem _ (h.read i k m' hm')
  rw [loadEntry]
  split
  · exact ⟨h.maxBytes, h.index, h.pending, h.blobs, hread, h.faithful⟩
  case h_2 b hb =>
    split
    case isTrue hfits =>
      refine ⟨h.maxBytes, h.index, h.pending, h.blobs, fun i k m' hm' => ?_, fun i k m' hm' => ?_⟩
      · obtain ⟨-, -, rfl⟩ | ⟨-, hm'⟩ := mem_pushFront hm'
        · exact mem_cons_self
        · exact hread i k m' hm'
      · obtain ⟨rfl, rfl, rfl⟩ | ⟨-, hm'⟩ := mem_pushFront hm'
        · exact ⟨b, rfl, rfl, hb, hfits.1, hm b (h.blobs _ b hb) hfits.1⟩
        · obtain ⟨b', hkeyed, hshard, hblob, hsize, hby⟩ := h.faithful i k m' hm'
          exact ⟨b', hkeyed, hshard, hblob, hsize, hby⟩
    case isFalse =>
      refine ⟨h.maxBytes, h.index, h.pending,
        fun file b hb => h.blobs file b (FinMap.mem_lookup_erase hb), hread, fun i k m' hm' => ?_⟩
      obtain ⟨b', hp⟩ := h.faithful i k m' hm'
      refine ⟨b', hp.keyed, hp.shard, ?_, hp.size, hp.writtenBy⟩
      rw [AList.lookup_erase_ne (hinj.ne (hother i k m' hm'))]
      exact hp.blob

theorem foldr_loadEntry_loaded {l : List ObjectMeta} (hl : ∀ m ∈ l, Describes blobPath blobs m)
    (hkeys : (l.map key).Nodup) :
    Loaded blobPath maxBytes blobs index l
      (l.foldr (loadEntry blobPath) ⟨maxBytes, fun _ => {}, blobs, index, none⟩) := by
  induction l with
  | nil => exact ⟨rfl, rfl, rfl, fun _ _ h => h, nofun, nofun⟩
  | cons m l ih =>
    obtain ⟨hnew, hkeys⟩ := nodup_cons.mp hkeys
    exact loadEntry_loaded hinj (ih (fun m' hm' => hl m' (mem_cons_of_mem _ hm')) hkeys)
      (hl m mem_cons_self) hnew

theorem foldl_removeLocked (h : Faithful blobPath t) (keys : List Str) :
    Removed t (keys.foldl (removeLocked blobPath) t) ∧
      Faithful blobPath (keys.foldl (removeLocked blobPath) t) := by
  induction keys generalizing t with
  | nil => exact ⟨.refl t, h⟩
  | cons key keys ih =>
    obtain ⟨hs, hf⟩ := ih (h.removeLocked hinj key)
    exact ⟨(removeLocked_removed blobPath t key).trans hs, hf⟩

theorem load_loaded (hl : ∀ m ∈ index.getD [], Describes blobPath blobs m)
    (hkeys : ((index.getD []).map key).Nodup) :
    Loaded blobPath maxBytes blobs index (index.getD []) (load blobPath maxBytes blobs index) := by
  have h : Loaded blobPath maxBytes blobs index (index.getD []) _ :=
    foldr_loadEntry_loaded hinj hl hkeys
  obtain ⟨hr, hf⟩ := foldl_removeLocked hinj h.faithful _
  exact ⟨hr.maxBytes.trans h.maxBytes, hr.index.trans h.index, hr.pending.trans h.pending,
    fun file b hb => h.blobs file b (hr.blobs file b hb),
    fun i k m hm => h.read i k m (hr.items i k m hm), hf⟩

end

/-! ## Steps -/

theorem inv_new (maxBytes : Int) : Inv blobPath (new maxBytes) :=
  ⟨nofun, nofun, nodup_nil, nofun, nofun, nofun, nofun⟩

theorem Inv.restart (hinj : Function.Injective blobPath) (h : Inv blobPath t) (maxBytes : Int) :
    Inv blobPath (load blobPath maxBytes t.blobs t.index) := by
  have hl : Loaded blobPath maxBytes t.blobs t.index _ _ := load_loaded hinj h.index h.indexKeys
  have hnone {i : Nat} {l : List ObjectMeta}
      (hp : (load blobPath maxBytes t.blobs t.index).pending = some (i, l)) : False := by
    rw [hl.pending] at hp
    cases hp
  refine ⟨fun file b hb => h.blobs file b (hl.blobs file b hb), ?_, ?_, fun i l hp => (hnone hp).elim,
    fun i l hp => (hnone hp).elim, fun i l hp => (hnone hp).elim, fun i k m hm => ?_⟩
  · rw [hl.index]
    exact fun m hm => (h.index m hm).mono hl.blobs
  · rw [hl.index]
    exact h.indexKeys
  · obtain ⟨b, hkeyed, hshard, hblob, -, rfl⟩ := hl.faithful i k m hm
    refine ⟨hkeyed, hshard, (h.blobs _ b (hl.blobs _ b hblob)).unplaced, fun b' hb' => ?_⟩
    obtain rfl : b = b' := Option.some.inj (hblob.symm.trans hb')
    rfl

theorem Inv.install (hinj : Function.Injective blobPath) (h : Inv blobPath t) {body : Str}
    (hok : t.StepOk (.install m body)) : Inv blobPath (t.step blobPath (.install m body)) := by
  obtain ⟨hclean, hother⟩ := hok
  -- the blob of a key after the rename
  have hlookup (k : Str) : (t.blobs.insert (blobPath m.key)
      (⟨{ m with size := body.length }, body⟩ : Blob)).lookup (blobPath k) =
        if k = m.key then some ⟨{ m with size := body.length }, body⟩
        else t.blobs.lookup (blobPath k) := by
    rw [FinMap.lookup_insert_ite]
    exact if_congr hinj.eq_iff rfl rfl
  have hdescribes {m' : ObjectMeta} (hold : Describes blobPath t.blobs m')
      (hm' : m'.key = m.key → m'.size = body.length → m' = { m with size := body.length }.unplaced) :
      Describes blobPath (t.step blobPath (.install m body)).blobs m' := by
    intro b hb hsize
    rw [step, hlookup] at hb
    split at hb
    case isTrue hk =>
      cases hb
      exact hm' hk hsize.symm
    case isFalse => exact hold b hb hsize
  refine ⟨?_, ?_, h.indexKeys, ?_, h.pendingKeys, h.pendingShards, ?_⟩
  · intro file b hb
    rw [step, FinMap.lookup_insert_ite] at hb
    split at hb
    · cases hb
      exact hclean.sized _
    · exact h.blobs file b hb
  · intro m' hm'
    exact hdescribes (h.index m' hm') (hother m' (mem_append_left _ hm'))
  · intro i l hp m' hm'
    refine hdescribes (h.pending i l hp m' hm') (hother m' (mem_append_right _ ?_))
    rw [show t.pending = some (i, l) from hp]
    exact hm'
  · intro i k m' hm'
    obtain ⟨rfl, rfl, rfl⟩ | ⟨hne, hm'⟩ := mem_pushFront hm'
    · refine ⟨rfl, rfl, hclean.sized _, fun b hb => ?_⟩
      rw [step, hlookup, if_pos rfl] at hb
      cases hb
      rfl
    · obtain ⟨hkeyed, hshard, hclean', hblob⟩ := h.items i k m' hm'
      refine ⟨hkeyed, hshard, hclean', fun b hb => ?_⟩
      rw [step, hlookup, if_neg] at hb
      · exact hblob b hb
      · rintro rfl
        exact hne ⟨hshard.symm, rfl⟩

theorem Inv.flushed (h : Inv blobPath t) {i : Nat}
    (hm : m ∈ (t.shards i).items.entries.map fun e => e.2.persisted) :
    Describes blobPath t.blobs m ∧ t.shardOf m.key = i := by
  obtain ⟨e, he, rfl⟩ := List.mem_map.mp hm
  obtain ⟨hkeyed, hshard, hclean, hblob⟩ := h.items i e.1 e.2 (AList.mem_lookup_iff.mpr he)
  rw [hclean]
  refine ⟨fun b hb _ => hblob b ?_, ?_⟩
  · rw [← hkeyed]
    exact hb
  · rw [show e.2.unplaced.key = e.2.key from rfl, hkeyed]
    exact hshard

theorem Inv.flushed_keys (h : Inv blobPath t) (i : Nat) :
    ((t.shards i).items.entries.map fun e => e.2.persisted).map key =
      (t.shards i).items.keys := by
  rw [List.map_map]
  refine map_congr_left fun e he => ?_
  have hholds := h.items i e.1 e.2 (AList.mem_lookup_iff.mpr he)
  exact hholds.clean.persisted_key.trans hholds.keyed

theorem items_markClean (t : DiskTier) (i j : Nat) :
    ((t.updateShard i fun s => { s with dirty := false }).shards j).items =
      (t.shards j).items := by
  rw [shards_updateShard]
  split
  case isTrue hj => rw [hj]
  case isFalse => rfl

theorem Inv.flushShard (h : Inv blobPath t) : Inv blobPath (t.step blobPath .flushShard) := by
  rw [step]
  split
  · exact h
  case h_2 i l hp =>
    split
    · refine ⟨h.blobs, h.index, h.indexKeys, ?_, ?_, ?_, fun j k m hm => ?_⟩
      · rintro j l' ⟨⟩ m hm
        rcases mem_append.mp hm with hm | hm
        · exact h.pending i l hp m hm
        · exact (h.flushed hm).1
      · rintro j l' ⟨⟩
        rw [map_append, nodup_append, h.flushed_keys]
        refine ⟨h.pendingKeys i l hp, (t.shards i).items.keys_nodup, ?_⟩
        intro k hk k' hk' heq
        rw [← h.flushed_keys] at hk'
        obtain ⟨m, hm, rfl⟩ := List.mem_map.mp hk
        obtain ⟨m', hm', rfl⟩ := List.mem_map.mp hk'
        have hlt := h.pendingShards i l hp m hm
        rw [heq, (h.flushed hm').2] at hlt
        exact absurd hlt (Nat.lt_irrefl i)
      · rintro j l' ⟨⟩ m hm
        rcases mem_append.mp hm with hm | hm
        · exact Nat.lt_succ_of_lt (h.pendingShards i l hp m hm)
        · exact Nat.lt_succ_of_le (Nat.le_of_eq (h.flushed hm).2)
      · rw [items_markClean] at hm
        exact (h.items j k m hm).of_eq rfl rfl
    · exact h

theorem Inv.step (hinj : Function.Injective blobPath) {a : DiskStep} (h : Inv blobPath t)
    (hok : t.StepOk a) : Inv blobPath (t.step blobPath a) := by
  cases a with
  | drop key => exact h.removed (removeLocked_removed blobPath t key)
  | install m body => exact h.install hinj hok
  | touch key => exact h.removed (touch_removed blobPath t key)
  | vanish file =>
    exact h.removed (vanish_removed blobPath t file)
  | flushBegin =>
    refine ⟨h.blobs, h.index, h.indexKeys, ?_, ?_, ?_, fun i k m hm => ?_⟩
    · rintro i l ⟨⟩ m ⟨⟩
    · rintro i l ⟨⟩
      exact nodup_nil
    · rintro i l ⟨⟩ m ⟨⟩
    · exact (h.items i k m hm).of_eq rfl rfl
  | flushShard => exact h.flushShard
  | flushWrite =>
    rw [DiskTier.step]
    split
    case h_1 i l hp =>
      split
      · refine ⟨h.blobs, h.pending i l hp, h.pendingKeys i l hp, ?_, ?_, ?_, fun i k m hm => ?_⟩
        · rintro i l ⟨⟩
        · rintro i l ⟨⟩
        · rintro i l ⟨⟩
        · exact (h.items i k m hm).of_eq rfl rfl
      · exact h
    case h_2 => exact h
  | restart maxBytes => exact h.restart hinj maxBytes

/-- **A restart is faithful.** After any run of steps from an empty directory in which no commit
renames a blob of the same size over one that the index file, or a flush under way, describes
otherwise, a crash and a start leave only entries that pair a blob with the metadata of the commit
that wrote it. The run may end between any two steps, and file names do not collide. -/
theorem restart_faithful (blobPath : Str → Str) (hinj : Function.Injective blobPath)
    (maxBytes maxBytes' : Int) (steps : List DiskStep)
    (hok : Meets (step blobPath) StepOk (new maxBytes) steps) :
    Faithful blobPath ((run (step blobPath) (new maxBytes) steps).step blobPath
      (.restart maxBytes')) := by
  have h : Inv blobPath (run (step blobPath) (new maxBytes) steps) :=
    run_invariant (fun _ _ hinv hstep => hinv.step hinj hstep) (inv_new maxBytes) hok
  exact (load_loaded hinj h.index h.indexKeys).faithful

def pageMeta (etag : String) : ObjectMeta := { key := lit "page", etag := lit etag }

theorem restart_faithful_page :
    Faithful id ((run (step id) (new (2 ^ 20)) [.install (pageMeta "1") (lit "old"),
      .flushBegin, .flushShard, .flushWrite, .install (pageMeta "2") (lit "newer")]).step id
        (.restart (2 ^ 20))) :=
  restart_faithful id Function.injective_id _ _ _ (by decide)

theorem restart_mixes_generations :
    ¬∀ (blobPath : Str → Str), Function.Injective blobPath →
      ∀ (maxBytes maxBytes' : Int) (ops : List Op),
        Faithful blobPath ((run (apply blobPath) (new maxBytes) ops).step blobPath
          (.restart maxBytes')) := by
  intro h
  have hf := h id Function.injective_id (2 ^ 20) (2 ^ 20)
    [.commit (pageMeta "1") (lit "old"), .flushIfDirty, .commit (pageMeta "2") (lit "new")]
  obtain ⟨b, hp⟩ := hf 0 (lit "page") { pageMeta "1" with size := 3 } rfl
  have hblob : ((run (apply id) (new (2 ^ 20)) [.commit (pageMeta "1") (lit "old"), .flushIfDirty,
      .commit (pageMeta "2") (lit "new")]).step id (.restart (2 ^ 20))).blobs.lookup (lit "page") =
        some ⟨{ pageMeta "2" with size := 3 }, lit "new"⟩ := rfl
  obtain rfl : ⟨{ pageMeta "2" with size := 3 }, lit "new"⟩ = b :=
    Option.some.inj (hblob.symm.trans hp.blob)
  exact absurd hp.writtenBy (by decide)

end DiskTier

end Cadish
