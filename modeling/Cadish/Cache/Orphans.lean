import Cadish.Cache.DiskBooks

/-!
# Orphaned files

A start removes the temporary files and checks the blobs that the index names; it never looks at
other files. **So every file is accounted for exactly when the index names all of them**
(`restart_accounts_iff`), and a blob that was renamed into place after the last flush stays
uncounted after a crash (`restart_orphans_blob`).
-/

namespace Cadish

open List Option AList DiskRing

namespace FileTier

variable {blobPath : Str → Str} {d : DiskDir} {t : FileTier}

variable {d₀ : DiskDir} {l : List ObjectMeta}

/-! ## Entries and files -/

/-- What the entries of an index that have been read have made of the directory `d₀`. -/
structure Settled (blobPath : Str → Str) (d₀ : DiskDir) (l : List ObjectMeta)
    (w : DiskDir × FileTier) : Prop where
  inStep : w.2.InStep
  read : ∀ key, ∀ m ∈ w.2.entry key, m ∈ l ∧ m.key = key
  paired : ∀ key, ∀ m ∈ w.2.entry key,
    ∃ b ∈ w.1.blobs.lookup (blobPath key), (b.body.length : Int) = m.size
  named : ∀ file ∈ w.1.blobs, (∃ m ∈ l, blobPath m.key = file) →
    ∃ key, ∃ _ ∈ w.2.entry key, blobPath key = file
  strays : ∀ file, (∀ m ∈ l, blobPath m.key ≠ file) → w.1.blobs.lookup file = d₀.blobs.lookup file
  temps : w.1.temps = d₀.temps

theorem Settled.new (maxBytes : Int) (d : DiskDir) :
    Settled blobPath d [] (d, { maxBytes, shards := newShards maxBytes }) where
  inStep := DiskRing.InStep.new maxBytes
  read _ _ hm := absurd hm (not_mem_none _)
  paired _ _ hm := absurd hm (not_mem_none _)
  named := by
    rintro file - ⟨m, hm, -⟩
    exact absurd hm not_mem_nil
  strays _ _ := rfl
  temps := rfl

section

variable (hinj : Function.Injective blobPath)

include hinj

theorem Settled.loadEntry {m : ObjectMeta} (h : Settled blobPath d₀ l (d, t))
    (hnew : ∀ m' ∈ l, m'.key ≠ m.key) :
    Settled blobPath d₀ (m :: l) (loadEntry blobPath m (d, t)) := by
  -- the entries that are there have other keys, and so other files
  have hother : ∀ key, ∀ m' ∈ t.entry key, key ≠ m.key := by
    rintro key m' hm' rfl
    obtain ⟨hl, hkey⟩ := h.read _ m' hm'
    exact hnew m' hl hkey
  have hread : ∀ key, ∀ m' ∈ t.entry key, m' ∈ m :: l ∧ m'.key = key :=
    fun key m' hm' => ⟨mem_cons_of_mem m (h.read key m' hm').1, (h.read key m' hm').2⟩
  have hstrays : ∀ file, (∀ m' ∈ m :: l, blobPath m'.key ≠ file) →
      blobPath m.key ≠ file ∧ d.blobs.lookup file = d₀.blobs.lookup file := by
    intro file hfile
    obtain ⟨hhead, htail⟩ := forall_mem_cons.mp hfile
    exact ⟨hhead, h.strays file htail⟩
  -- a file that the new entry does not name was named before
  have hnamed : ∀ file ∈ d.blobs, blobPath m.key ≠ file → (∃ m' ∈ m :: l, blobPath m'.key = file) →
      ∃ key, ∃ _ ∈ t.entry key, blobPath key = file := by
    rintro file hfile hne ⟨m', hm', rfl⟩
    obtain rfl | hm' := mem_cons.mp hm'
    · exact absurd rfl hne
    · exact h.named _ hfile ⟨m', hm', rfl⟩
  simp only [FileTier.loadEntry]
  split
  case h_1 hnone =>
    refine ⟨h.inStep, hread, h.paired, fun file hfile hm => hnamed file hfile ?_ hm,
      fun file hfile => (hstrays file hfile).2, h.temps⟩
    rintro rfl
    exact lookup_eq_none.mp hnone hfile
  case h_2 b hb =>
    split
    case isTrue hfits =>
      have hnone : (t.shard m.key).items.lookup m.key = none :=
        eq_none_iff_forall_not_mem.mpr fun m' hm' => hother m.key m' hm' rfl
      refine ⟨h.inStep.setShard ((h.inStep _).pushFront rfl (hfits.1 ▸ Int.natCast_nonneg _) hnone),
        fun key m' hm' => ?_, fun key m' hm' => ?_, fun file hfile hm => ?_,
        fun file hfile => (hstrays file hfile).2, h.temps⟩
      · rw [entry_pushFront] at hm'
        split at hm'
        case isTrue hkey =>
          cases hm'
          exact ⟨mem_cons_self, hkey.symm⟩
        case isFalse => exact hread key m' hm'
      · rw [entry_pushFront] at hm'
        split at hm'
        case isTrue hkey =>
          cases hm'
          exact ⟨b, hkey ▸ hb, hfits.1⟩
        case isFalse => exact h.paired key m' hm'
      · by_cases hne : blobPath m.key = file
        · exact ⟨m.key, m, by rw [entry_pushFront, if_pos rfl]; rfl, hne⟩
        · obtain ⟨key, m', hm', rfl⟩ := hnamed file hfile hne hm
          refine ⟨key, m', ?_, rfl⟩
          rw [entry_pushFront, if_neg (hother key m' hm')]
          exact hm'
    case isFalse =>
      refine ⟨h.inStep, hread, fun key m' hm' => ?_, fun file hfile hm => ?_, fun file hfile => ?_,
        h.temps⟩
      · obtain ⟨b', hb', hsize⟩ := h.paired key m' hm'
        refine ⟨b', ?_, hsize⟩
        rw [lookup_erase_ne (hinj.ne (hother key m' hm'))]
        exact hb'
      · obtain ⟨hne, hfile⟩ := mem_erase.mp hfile
        exact hnamed file hfile (Ne.symm hne) hm
      · obtain ⟨hne, hsame⟩ := hstrays file hfile
        rw [lookup_erase_ne (Ne.symm hne)]
        exact hsame

theorem Settled.removeLocked (h : Settled blobPath d₀ l (d, t)) (i : Nat) (key : Str) :
    Settled blobPath d₀ l
      ({ d with blobs := (removeLocked blobPath d.blobs (t.shards i) key).1 },
        t.setShard i (removeLocked blobPath d.blobs (t.shards i) key).2) := by
  have hstep := h.inStep.setShard
    (removeLocked_shrunk blobPath d.blobs (h.inStep i) key).inStep
  obtain ⟨-, hsame⟩ | ⟨m, s, hm, hitems, hremoved⟩ :=
    removeLocked_cases blobPath d.blobs (t.shards i) key
  · rw [hsame, setShard_self]
    exact h
  · rw [hremoved] at hstep ⊢
    have hentry := entry_erase h.inStep hm hitems
    obtain ⟨hl, hkey⟩ := h.read key m (hentry key).1
    have hleft : ∀ k, ∀ m' ∈ (t.setShard i s).entry k, k ≠ key ∧ m' ∈ t.entry k := by
      intro k m' hm'
      rw [(hentry k).2] at hm'
      split at hm'
      · cases hm'
      case isFalse hne => exact ⟨hne, hm'⟩
    refine ⟨hstep, fun k m' hm' => h.read k m' (hleft k m' hm').2, fun k m' hm' => ?_,
      fun file hfile hname => ?_, fun file hfile => ?_, h.temps⟩
    · obtain ⟨hne, hm'⟩ := hleft k m' hm'
      obtain ⟨b, hb, hsize⟩ := h.paired k m' hm'
      refine ⟨b, ?_, hsize⟩
      rw [lookup_erase_ne (hinj.ne hne)]
      exact hb
    · obtain ⟨hne, hfile⟩ := mem_erase.mp hfile
      obtain ⟨k, m', hm', rfl⟩ := h.named file hfile hname
      refine ⟨k, m', ?_, rfl⟩
      rw [(hentry k).2, if_neg (fun hk => hne (congrArg blobPath hk))]
      exact hm'
    · have hne : file ≠ blobPath key := fun heq => hfile m hl (by rw [hkey, heq])
      rw [lookup_erase_ne hne]
      exact h.strays file hfile

theorem Settled.evict {i fuel : Nat} {n : Int} {files files' : FinMap Str Blob} {s s' : DiskRing}
    (h : Settled blobPath d₀ l ({ d with blobs := files }, t.setShard i s))
    (hevict : evict blobPath n fuel files s = some (files', s')) :
    Settled blobPath d₀ l ({ d with blobs := files' }, t.setShard i s') := by
  have hstep : ∀ files s key, Settled blobPath d₀ l ({ d with blobs := files }, t.setShard i s) →
      Settled blobPath d₀ l ({ d with blobs := (DiskRing.removeLocked blobPath files s key).1 },
        t.setShard i (DiskRing.removeLocked blobPath files s key).2) := by
    intro files s key h
    have hgone := h.removeLocked hinj i key
    rw [shards_setShard, if_pos rfl, setShard_setShard] at hgone
    exact hgone
  exact DiskRing.evict_kept hstep h hevict

theorem Settled.cutShards {is : List Nat} {w : DiskDir × FileTier}
    (h : Settled blobPath d₀ l (d, t)) (hcut : cutShards blobPath is (d, t) = some w) :
    Settled blobPath d₀ l w := by
  induction is generalizing d t with
  | nil =>
    cases hcut
    exact h
  | cons i is ih =>
    rw [FileTier.cutShards] at hcut
    split at hcut
    · cases hcut
    case h_2 files s hroom =>
      refine ih (Settled.evict hinj ?_ hroom) hcut
      rw [setShard_self]
      exact h

theorem settled_foldr (maxBytes : Int) (d : DiskDir) (hkeys : (l.map ObjectMeta.key).Nodup) :
    Settled blobPath d l
      (l.foldr (loadEntry blobPath) (d, { maxBytes, shards := newShards maxBytes })) := by
  induction l with
  | nil => exact .new maxBytes d
  | cons m l ih =>
    obtain ⟨hhead, htail⟩ := nodup_cons.mp hkeys
    refine (ih htail).loadEntry hinj fun m' hm' hkey => hhead ?_
    exact hkey ▸ List.mem_map_of_mem hm'

theorem newDiskTier_settled {maxBytes : Int} {w : DiskDir × FileTier}
    (hkeys : ((d.index.getD []).map ObjectMeta.key).Nodup)
    (hnew : newDiskTier blobPath maxBytes d = some w) :
    Settled blobPath { d with temps := ∅ } (d.index.getD []) w :=
  (settled_foldr hinj maxBytes { d with temps := ∅ } hkeys).cutShards hinj hnew

end

/-! ## Accounting -/

def diskBytes (d : DiskDir) : Int :=
  d.blobs.total (fun b => (b.body.length : Int)) + d.temps.total fun body => (body.length : Int)

/-- Every file of the directory is the blob of an entry, and the bytes on the disk are those that
are counted, within the budget. -/
structure Accounted (blobPath : Str → Str) (w : DiskDir × FileTier) : Prop where
  temps : ∀ temp, temp ∉ w.1.temps
  blobs : ∀ file ∈ w.1.blobs, ∃ key, ∃ _ ∈ w.2.entry key, blobPath key = file
  bytes : diskBytes w.1 = tierBytes w.2.maxBytes w.2.shelves
  bounded : diskBytes w.1 ≤ max w.2.maxBytes 0

theorem mem_residents (h : t.InStep) {e : Sigma fun _ : Str => ObjectMeta} :
    e ∈ residents t.maxBytes t.shelves ↔ e.2 ∈ t.entry e.1 := by
  rw [residents, mem_flatMap]
  constructor
  · rintro ⟨i, -, he⟩
    have hlookup : (t.shards i).items.lookup e.1 = some e.2 := mem_lookup_iff.mpr he
    have hi := (h i).home e.1 (lookup_isSome.mp (isSome_of_mem hlookup))
    rw [entry, shard, shardOf, hi]
    exact hlookup
  · intro he
    exact ⟨t.shardOf e.1, mem_range.mpr (shardIndex_lt _ (shardCount_pos _)),
      mem_lookup_iff.mp he⟩

theorem Settled.diskBytes_eq (hinj : Function.Injective blobPath) (h : Settled blobPath d₀ l (d, t))
    (hok : t.Ok) (htemps : d.temps = ∅)
    (hall : ∀ file ∈ d.blobs, ∃ key, ∃ _ ∈ t.entry key, blobPath key = file) :
    diskBytes d = tierBytes t.maxBytes t.shelves := by
  -- the blob files are the files of the resident keys, each once
  have hperm : d.blobs.keys.Perm ((residents t.maxBytes t.shelves).map fun e => blobPath e.1) := by
    have honce := hok.books.once.map hinj
    rw [List.map_map] at honce
    refine (perm_ext_iff_of_nodup d.blobs.keys_nodup honce).mpr fun file => ?_
    rw [List.mem_map]
    constructor
    · intro hfile
      obtain ⟨key, m, hm, rfl⟩ := hall file hfile
      exact ⟨⟨key, m⟩, (mem_residents h.inStep).mpr hm, rfl⟩
    · rintro ⟨e, he, rfl⟩
      obtain ⟨b, hb, -⟩ := h.paired e.1 e.2 ((mem_residents h.inStep).mp he)
      exact lookup_isSome.mp (isSome_of_mem hb)
  -- and each has the size of its entry
  have hsizes : (residents t.maxBytes t.shelves).map (fun e => e.2.size) =
      (residents t.maxBytes t.shelves).map fun e =>
        (d.blobs.lookup (blobPath e.1)).elim 0 fun b => (b.body.length : Int) := by
    refine map_congr_left fun e he => ?_
    obtain ⟨b, hb, hsize⟩ := h.paired e.1 e.2 ((mem_residents h.inStep).mp he)
    rw [mem_def.mp hb]
    exact hsize.symm
  rw [diskBytes, htemps, FinMap.total_empty, Int.add_zero, FinMap.total_eq_sum_keys,
    hok.books.bytes, hsizes, (hperm.map _).sum_eq, List.map_map]
  rfl

theorem IndexOk.of_nodup (h : ((d.index.getD []).map ObjectMeta.key).Nodup) : IndexOk d := by
  refine (pairwise_map.mp h).imp fun hne hsame => ?_
  exact hne hsame.1.symm

/-- **When a start accounts for every file.** For every directory that a crash leaves behind: every
file is then the blob of an entry, and the bytes on the disk are those that are counted, exactly
when the index names every blob file. -/
theorem restart_accounts_iff (hinj : Function.Injective blobPath) (maxBytes : Int) (d : DiskDir)
    (hkeys : ((d.index.getD []).map ObjectMeta.key).Nodup) :
    ∃ w, newDiskTier blobPath maxBytes d = some w ∧ (Accounted blobPath w ↔
      ∀ file ∈ d.blobs, ∃ m ∈ d.index.getD [], blobPath m.key = file) := by
  obtain ⟨⟨d', t⟩, hnew, hok⟩ := newDiskTier_ok blobPath (IndexOk.of_nodup hkeys) maxBytes
  have hsettled := newDiskTier_settled hinj hkeys hnew
  refine ⟨(d', t), hnew, fun hacc file hfile => ?_, fun hnamed => ?_⟩
  · by_contra hstray
    -- a file that is not named stays, without an entry
    have hstays : d'.blobs.lookup file = d.blobs.lookup file :=
      hsettled.strays file fun m hm heq => hstray ⟨m, hm, heq⟩
    have hfile' : file ∈ d'.blobs := by
      rw [← lookup_isSome, hstays, lookup_isSome]
      exact hfile
    obtain ⟨key, m, hm, rfl⟩ := hacc.blobs file hfile'
    obtain ⟨hl, hkey⟩ := hsettled.read key m hm
    exact hstray ⟨m, hl, congrArg blobPath hkey⟩
  · have hall : ∀ file ∈ d'.blobs, ∃ key, ∃ _ ∈ t.entry key, blobPath key = file := by
      intro file hfile
      by_cases hname : ∃ m ∈ d.index.getD [], blobPath m.key = file
      · exact hsettled.named file hfile hname
      · have hstays : d'.blobs.lookup file = d.blobs.lookup file :=
          hsettled.strays file fun m hm heq => hname ⟨m, hm, heq⟩
        rw [← lookup_isSome, hstays, lookup_isSome] at hfile
        exact absurd (hnamed file hfile) hname
    have htemps : d'.temps = ∅ := hsettled.temps
    have hbytes := hsettled.diskBytes_eq hinj hok htemps hall
    refine ⟨fun temp => ?_, hall, hbytes, hbytes ▸ hok.books.bounded⟩
    rw [htemps]
    exact notMem_empty temp

end FileTier

open FileTier

def flushedDir : DiskDir where
  blobs := insert (lit "/a") ⟨{ key := lit "/a", size := 1 }, [1]⟩ ∅
  temps := insert 7 [1, 2] ∅
  index := some [{ key := lit "/a", size := 1 }]

theorem restart_accounts_flushed :
    ∃ w, newDiskTier id 100 flushedDir = some w ∧ Accounted id w := by
  obtain ⟨w, hw, hiff⟩ := restart_accounts_iff Function.injective_id 100 flushedDir (by decide)
  refine ⟨w, hw, hiff.mpr fun file hfile => ?_⟩
  obtain rfl : file = lit "/a" := mem_singleton.mp hfile
  exact ⟨_, mem_cons_self, rfl⟩

theorem restart_orphans_blob :
    ¬ ∀ (blobPath : Str → Str), Function.Injective blobPath → ∀ (maxBytes : Int) (ops : List FileOp),
      ∀ w ∈ Transition.run (next blobPath) (newDiskTier blobPath maxBytes {})
        (ops ++ [.restart maxBytes]), Accounted blobPath w := by
  intro h
  have hacc := h id Function.injective_id 100
    [.create 0 { key := lit "/a" }, .write 0 [1], .commit 0 true]
  have hlost : (Transition.run (next id) (newDiskTier id 100 {})
      ([.create 0 { key := lit "/a" }, .write 0 [1], .commit 0 true] ++ [.restart 100])).map (fun w =>
        (decide (lit "/a" ∈ w.1.blobs), w.2.entry (lit "/a"))) = some (true, none) := by decide
  obtain ⟨w, hw, hpair⟩ := map_eq_some_iff.mp hlost
  obtain ⟨hfile, hnone⟩ := Prod.mk.inj hpair
  obtain ⟨key, m, hm, hkey⟩ := (hacc w hw).blobs (lit "/a") (of_decide_eq_true hfile)
  rw [show key = lit "/a" from hkey, hnone] at hm
  exact not_mem_none _ hm

end Cadish
