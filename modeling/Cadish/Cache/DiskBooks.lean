import Cadish.Cache.DiskFiles
import Cadish.Cache.RamBooks

/-!
# The books of the disk tier

The list, the map and the counters of a shard agree, and no eviction loop runs forever, **as long as
no index is loaded that has two entries with one key and one size** (`tiers_in_order`). In the JSON
of an index, keys that are not valid UTF-8 may become alike (`restart_counts_twice`).
-/

namespace Cadish

open List Option ObjectMeta Transition DiskRing

namespace DiskRing

variable {blobPath : Str → Str} {files files' : FinMap Str Blob} {s s' : DiskRing} {maxBytes : Int}
  {i : Nat}

variable {n : Int}

structure InStep (maxBytes : Int) (i : Nat) (s : DiskRing) : Prop where
  cap : s.maxBytes = shardCap maxBytes (shardCount maxBytes) i
  ledger : Ledger size s.lru s.items s.curBytes
  mirror : s.atomicBytes = s.curBytes
  home : ∀ key ∈ s.items, shardIndex key (shardCount maxBytes) = i
  sizes : ∀ key, ∀ m ∈ s.items.lookup key, 0 ≤ m.size

theorem InStep.new (maxBytes : Int) (i : Nat) :
    InStep maxBytes i { maxBytes := shardCap maxBytes (shardCount maxBytes) i } where
  cap := rfl
  ledger := .empty _
  mirror := rfl
  home key hkey := absurd hkey (AList.notMem_empty key)
  sizes _ _ hm := absurd hm (not_mem_none _)

theorem InStep.ok (h : InStep maxBytes i s) (hfits : s.curBytes ≤ max s.maxBytes 0) :
    s.shelf.Ok size maxBytes i :=
  ⟨h.cap, h.ledger, h.mirror, hfits, h.home⟩

theorem InStep.pushFront (h : InStep maxBytes i s) {m : ObjectMeta}
    (hi : shardIndex m.key (shardCount maxBytes) = i) (hsize : 0 ≤ m.size)
    (hnew : s.items.lookup m.key = none) : InStep maxBytes i (s.pushFront m) where
  cap := h.cap
  ledger := h.ledger.push m hnew
  mirror := rfl
  home key hkey := by
    obtain rfl | hkey := (AList.mem_insert _).mp hkey
    · exact hi
    · exact h.home key hkey
  sizes key m' hm' := by
    rw [DiskRing.pushFront, FinMap.lookup_insert_ite] at hm'
    split at hm'
    · cases hm'
      exact hsize
    · exact h.sizes key m' hm'

theorem InStep.moveToFront (h : InStep maxBytes i s) {key : Str} (hkey : key ∈ s.items) :
    InStep maxBytes i (s.moveToFront key) where
  cap := h.cap
  ledger := h.ledger.reorder (perm_cons_erase (h.ledger.mem_iff.mpr hkey)).symm
  mirror := h.mirror
  home := h.home
  sizes := h.sizes

/-! ## What goes -/

structure Shrunk (maxBytes : Int) (i : Nat) (s s' : DiskRing) : Prop where
  inStep : InStep maxBytes i s'
  curBytes : s'.curBytes ≤ s.curBytes
  items : ∀ key, ∀ m ∈ s'.items.lookup key, m ∈ s.items.lookup key

theorem Shrunk.refl (h : InStep maxBytes i s) : Shrunk maxBytes i s s :=
  ⟨h, Int.le_refl _, fun _ _ hm => hm⟩

theorem Shrunk.trans {s'' : DiskRing} (h : Shrunk maxBytes i s s') (h' : Shrunk maxBytes i s' s'') :
    Shrunk maxBytes i s s'' :=
  ⟨h'.inStep, Int.le_trans h'.curBytes h.curBytes, fun key m hm => h.items key m (h'.items key m hm)⟩

theorem removeLocked_shrunk (blobPath : Str → Str) (files : FinMap Str Blob)
    (h : InStep maxBytes i s) (key : Str) :
    Shrunk maxBytes i s (removeLocked blobPath files s key).2 := by
  unfold removeLocked
  split
  · exact .refl h
  case h_2 m hm =>
    refine ⟨⟨h.cap, h.ledger.erase hm, rfl, fun k hk => h.home k (AList.mem_erase.mp hk).2,
      fun k m' hm' => h.sizes k m' (FinMap.mem_lookup_erase hm')⟩, ?_,
      fun k m' hm' => FinMap.mem_lookup_erase hm'⟩
    exact Int.sub_le_self _ (h.sizes key m hm)

variable (blobPath files s) in
theorem removeLocked_cases (key : Str) :
    (s.items.lookup key = none ∧ removeLocked blobPath files s key = (files, s)) ∨
      ∃ m s', s.items.lookup key = some m ∧ s'.items = s.items.erase key ∧
        removeLocked blobPath files s key = (files.erase (blobPath key), s') := by
  unfold removeLocked
  split
  case h_1 hnone => exact .inl ⟨hnone, rfl⟩
  case h_2 m hm => exact .inr ⟨m, _, hm, rfl, rfl⟩

variable (blobPath files s) in
theorem lookup_removeLocked_self (key : Str) :
    (removeLocked blobPath files s key).2.items.lookup key = none := by
  unfold removeLocked
  split
  case h_1 h => exact h
  case h_2 => exact AList.lookup_erase _ _

/-! ## Eviction -/

theorem round_eq_some (h : round blobPath n files s = some (files', s')) :
    ∃ key, s.lru.getLast? = some key ∧ removeLocked blobPath files s key = (files', s') := by
  unfold round at h
  split at h
  · cases h
  · exact map_eq_some_iff.mp h

theorem InStep.round (h : InStep maxBytes i s) (hround : round blobPath n files s = some (files', s')) :
    s'.lru.length < s.lru.length ∧ Shrunk maxBytes i s s' := by
  obtain ⟨key, hback, hremoved⟩ := round_eq_some hround
  obtain ⟨⟨m, hm⟩, -⟩ := h.ledger.getLast hback
  have hmem : key ∈ s.lru := mem_of_getLast? hback
  have hshrunk := removeLocked_shrunk blobPath files h key
  have hlength : (removeLocked blobPath files s key).2.lru.length < s.lru.length := by
    rw [removeLocked, hm, length_erase_of_mem hmem]
    exact Nat.sub_lt (length_pos_of_mem hmem) Nat.one_pos
  rw [hremoved] at hshrunk hlength
  exact ⟨hlength, hshrunk⟩

theorem evict_of_done (h : round blobPath n files s = none) (fuel : Nat) :
    evict blobPath n fuel files s = some (files, s) := by
  cases fuel <;> rw [evict, h]

theorem evict_succ (h : round blobPath n files s = some (files', s')) (fuel : Nat) :
    evict blobPath n (fuel + 1) files s = evict blobPath n fuel files' s' := by
  rw [evict, h]

theorem evict_zero (h : round blobPath n files s = some (files', s')) :
    evict blobPath n 0 files s = none := by
  rw [evict, h]

theorem evict_induction {P : Nat → FinMap Str Blob → DiskRing → Prop}
    (hdone : ∀ fuel, round blobPath n files' s' = none → P fuel files' s')
    (hnext : ∀ fuel files s p, round blobPath n files s = some p → P fuel p.1 p.2 →
      P (fuel + 1) files s) {fuel : Nat}
    (hevict : evict blobPath n fuel files s = some (files', s')) : P fuel files s := by
  have hover {fuel : Nat} {files : FinMap Str Blob} {s : DiskRing}
      (hround : round blobPath n files s = none)
      (hevict : evict blobPath n fuel files s = some (files', s')) : P fuel files s := by
    rw [evict_of_done hround] at hevict
    cases hevict
    exact hdone fuel hround
  induction fuel generalizing files s with
  | zero =>
    cases hround : round blobPath n files s with
    | none => exact hover hround hevict
    | some p =>
      rw [evict_zero hround] at hevict
      cases hevict
  | succ fuel ih =>
    cases hround : round blobPath n files s with
    | none => exact hover hround hevict
    | some p =>
      rw [evict_succ hround] at hevict
      exact hnext fuel files s p hround (ih hevict)

theorem evict_kept {P : FinMap Str Blob → DiskRing → Prop} (hP : ∀ files s key, P files s →
      P (removeLocked blobPath files s key).1 (removeLocked blobPath files s key).2) {fuel : Nat}
    (h : P files s) (hevict : evict blobPath n fuel files s = some (files', s')) : P files' s' := by
  refine evict_induction (P := fun _ files s => P files s → P files' s') (fun _ _ h => h) ?_ hevict h
  intro _ files s p hround ih h
  obtain ⟨key, -, hremoved⟩ := round_eq_some hround
  have hgone := hP files s key h
  rw [hremoved] at hgone
  exact ih hgone

theorem InStep.evict (blobPath : Str → Str) (files : FinMap Str Blob) (h : InStep maxBytes i s)
    (n : Int) {fuel : Nat} (hfuel : s.lru.length ≤ fuel) :
    ∃ files' s', evict blobPath n fuel files s = some (files', s') ∧ Shrunk maxBytes i s s' ∧
      DiskRing.round blobPath n files' s' = none := by
  induction fuel generalizing s files with
  | zero =>
    cases hround : DiskRing.round blobPath n files s with
    | none => exact ⟨files, s, evict_of_done hround 0, .refl h, hround⟩
    | some p =>
      obtain ⟨hlt, -⟩ := InStep.round h hround
      omega
  | succ fuel ih =>
    cases hround : DiskRing.round blobPath n files s with
    | none => exact ⟨files, s, evict_of_done hround _, .refl h, hround⟩
    | some p =>
      obtain ⟨hlt, hshrunk⟩ := InStep.round h hround
      obtain ⟨files', s', hevict, hrest, hdone⟩ := ih p.1 hshrunk.inStep (by omega)
      exact ⟨files', s', (evict_succ hround fuel).trans hevict, hshrunk.trans hrest, hdone⟩

theorem InStep.room (h : InStep maxBytes i s) (hdone : DiskRing.round blobPath n files s = none) :
    s.curBytes + n ≤ s.maxBytes ∨ s.curBytes = 0 := by
  unfold DiskRing.round at hdone
  split at hdone
  case isTrue hfits => exact .inl hfits
  case isFalse =>
    have hnil : s.lru = [] := getLast?_eq_none_iff.mp (map_eq_none_iff.mp hdone)
    have hledger := h.ledger
    rw [hnil] at hledger
    exact .inr hledger.sum_of_nil

end DiskRing

namespace FileTier

variable {blobPath : Str → Str} {d : DiskDir} {t : FileTier} {maxBytes : Int}

variable {i : Nat} {s : DiskRing}

theorem shards_setShard (t : FileTier) (i j : Nat) (s : DiskRing) :
    (t.setShard i s).shards j = if j = i then s else t.shards j := by
  simp only [setShard, Function.update_apply]

/-- The books of every shard are in order, but for their budgets. -/
def InStep (t : FileTier) : Prop := ∀ i, (t.shards i).InStep t.maxBytes i

def Ok (t : FileTier) : Prop :=
  t.InStep ∧ ∀ i < shardCount t.maxBytes, (t.shards i).curBytes ≤ max (t.shards i).maxBytes 0

theorem InStep.setShard (h : t.InStep) (hs : s.InStep t.maxBytes i) : (t.setShard i s).InStep := by
  intro j
  rw [shards_setShard]
  split
  case isTrue hj => exact hj ▸ hs
  case isFalse => exact h j

theorem Ok.setShard (h : t.Ok) (hs : s.InStep t.maxBytes i)
    (hfits : i < shardCount t.maxBytes → s.curBytes ≤ max s.maxBytes 0) : (t.setShard i s).Ok := by
  refine ⟨h.1.setShard hs, fun j hj => ?_⟩
  rw [shards_setShard]
  split
  case isTrue heq => exact hfits (heq ▸ hj)
  case isFalse => exact h.2 j hj

theorem Ok.shrunk (h : t.Ok) (hs : DiskRing.Shrunk t.maxBytes i (t.shards i) s) :
    (t.setShard i s).Ok := by
  refine h.setShard hs.inStep fun hi => Int.le_trans hs.curBytes ?_
  rw [hs.inStep.cap, ← (h.1 i).cap]
  exact h.2 i hi

theorem Ok.books (h : t.Ok) : Books size t.maxBytes t.shelves :=
  .of_shelves fun i hi => (h.1 i).ok (h.2 i hi)

/-! ## Loading -/

/-- What the entries of an index that have been read have left. -/
structure Loading (blobPath : Str → Str) (l : List ObjectMeta) (w : DiskDir × FileTier) : Prop where
  inStep : w.2.InStep
  read : ∀ key, ∀ m ∈ w.2.entry key, m ∈ l ∧ m.key = key ∧
    ∀ b ∈ w.1.blobs.lookup (blobPath key), (b.body.length : Int) = m.size

theorem entry_setShard (t : FileTier) (i : Nat) (s : DiskRing) (key : Str) :
    (t.setShard i s).entry key = if t.shardOf key = i then s.items.lookup key else t.entry key := by
  rw [entry, shard, shards_setShard]
  exact apply_ite (fun s : DiskRing => s.items.lookup key) _ _ _

theorem entry_pushFront (t : FileTier) (m : ObjectMeta) (key : Str) :
    (t.setShard (t.shardOf m.key) ((t.shard m.key).pushFront m)).entry key =
      if key = m.key then some m else t.entry key := by
  rw [entry_setShard]
  by_cases hkey : key = m.key
  · rw [if_pos hkey, if_pos (congrArg t.shardOf hkey), hkey]
    exact AList.lookup_insert _
  · split
    case isTrue hshard =>
      rw [pushFront, AList.lookup_insert_ne hkey, entry, shard, shard, hshard]
    case isFalse => rfl

theorem setShard_self (t : FileTier) (i : Nat) : t.setShard i (t.shards i) = t := by
  rw [setShard, Function.update_eq_self]

theorem setShard_setShard (t : FileTier) (i : Nat) (s s' : DiskRing) :
    (t.setShard i s).setShard i s' = t.setShard i s' := by
  simp [setShard]

theorem entry_erase (h : t.InStep) {key : Str} {m : ObjectMeta}
    (hm : (t.shards i).items.lookup key = some m) (hs : s.items = (t.shards i).items.erase key)
    (k : Str) :
    t.entry key = some m ∧ (t.setShard i s).entry k = if k = key then none else t.entry k := by
  have hi : t.shardOf key = i := (h i).home key (AList.lookup_isSome.mp (isSome_of_mem hm))
  refine ⟨by rw [entry, shard, hi, hm], ?_⟩
  rw [entry_setShard, hs, FinMap.lookup_erase_ite]
  by_cases hk : k = key
  · rw [if_pos hk, if_pos hk, hk, if_pos hi]
  · split
    case isTrue hshard => rw [entry, shard, hshard]
    case isFalse => rfl

theorem Loading.loadEntry {l : List ObjectMeta} {m : ObjectMeta} (h : Loading blobPath l (d, t))
    (hnew : ∀ m' ∈ l, ¬(m'.key = m.key ∧ m'.size = m.size)) :
    Loading blobPath (m :: l) (loadEntry blobPath m (d, t)) := by
  simp only [FileTier.loadEntry]
  have hread (key : Str) (m' : ObjectMeta) (hm' : m' ∈ t.entry key) :
      m' ∈ m :: l ∧ m'.key = key ∧ ∀ b ∈ d.blobs.lookup (blobPath key), (b.body.length : Int) = m'.size :=
    ⟨mem_cons_of_mem m (h.read key m' hm').1, (h.read key m' hm').2⟩
  split
  · exact ⟨h.inStep, hread⟩
  case h_2 b hb =>
    split
    case isTrue hfits =>
      -- an entry of the key that was read before has the size of the same blob
      have hnone : (t.shard m.key).items.lookup m.key = none := by
        refine eq_none_iff_forall_not_mem.mpr fun m' hm' => ?_
        obtain ⟨hl, hkey, hsize⟩ := h.read m.key m' hm'
        exact hnew m' hl ⟨hkey, (hsize b hb).symm.trans hfits.1⟩
      refine ⟨h.inStep.setShard ((h.inStep _).pushFront rfl ?_ hnone), fun key m' hm' => ?_⟩
      · rw [← hfits.1]
        exact Int.natCast_nonneg _
      · rw [entry_pushFront] at hm'
        split at hm'
        case isTrue hkey =>
          cases hm'
          refine ⟨mem_cons_self, hkey.symm, fun b' hb' => ?_⟩
          rw [hkey] at hb'
          rw [some.inj (hb'.symm.trans hb)]
          exact hfits.1
        case isFalse => exact hread key m' hm'
    case isFalse =>
      refine ⟨h.inStep, fun key m' hm' => ?_⟩
      obtain ⟨hl, hkey, hsize⟩ := hread key m' hm'
      exact ⟨hl, hkey, fun b' hb' => hsize b' (FinMap.mem_lookup_erase hb')⟩

theorem maxBytes_loadEntry (m : ObjectMeta) (w : DiskDir × FileTier) :
    (loadEntry blobPath m w).2.maxBytes = w.2.maxBytes := by
  simp only [loadEntry]
  split
  · rfl
  · split <;> rfl

/-- No two entries of the index have one key and one size. -/
def IndexOk (d : DiskDir) : Prop :=
  (d.index.getD []).Pairwise fun m m' => ¬(m'.key = m.key ∧ m'.size = m.size)

instance (d : DiskDir) : Decidable (IndexOk d) :=
  inferInstanceAs (Decidable (List.Pairwise _ _))

theorem loading_foldr (blobPath : Str → Str) {l : List ObjectMeta}
    (hl : l.Pairwise fun m m' => ¬(m'.key = m.key ∧ m'.size = m.size)) (d : DiskDir) (maxBytes : Int) :
    Loading blobPath l (l.foldr (loadEntry blobPath) (d, { maxBytes, shards := newShards maxBytes })) ∧
      (l.foldr (loadEntry blobPath) (d, { maxBytes, shards := newShards maxBytes })).2.maxBytes =
        maxBytes := by
  induction l with
  | nil => exact ⟨⟨DiskRing.InStep.new maxBytes, fun _ _ hm => absurd hm (not_mem_none _)⟩, rfl⟩
  | cons m l ih =>
    obtain ⟨hhead, htail⟩ := pairwise_cons.mp hl
    obtain ⟨hloading, hmax⟩ := ih htail
    exact ⟨hloading.loadEntry fun m' hm' => hhead m' hm', (maxBytes_loadEntry m _).trans hmax⟩

theorem cutShards_ok (blobPath : Str → Str) (d : DiskDir) (h : t.InStep) (is : List Nat) :
    ∃ w, cutShards blobPath is (d, t) = some w ∧ w.2.maxBytes = t.maxBytes ∧ w.2.InStep ∧
      ∀ i, i ∈ is ∨ (t.shards i).curBytes ≤ max (t.shards i).maxBytes 0 →
        (w.2.shards i).curBytes ≤ max (w.2.shards i).maxBytes 0 := by
  induction is generalizing d t with
  | nil => exact ⟨(d, t), rfl, rfl, h, fun i hi => hi.resolve_left (not_mem_nil)⟩
  | cons i is ih =>
    obtain ⟨files, s, hevict, hshrunk, hdone⟩ := (h i).evict blobPath d.blobs 0 (Nat.le_refl _)
    have hfits : s.curBytes ≤ max s.maxBytes 0 := by
      obtain hroom | hzero := hshrunk.inStep.room hdone
      · omega
      · omega
    obtain ⟨w, hcut, hmax, hstep, hrest⟩ :=
      ih { d with blobs := files } (InStep.setShard h hshrunk.inStep)
    refine ⟨w, ?_, hmax, hstep, fun j hj => hrest j ?_⟩
    · rw [cutShards, DiskRing.makeRoom, hevict]
      exact hcut
    · rw [shards_setShard]
      split
      · exact .inr hfits
      case isFalse hne => exact hj.imp_left fun hmem => (mem_cons.mp hmem).resolve_left hne

theorem newDiskTier_ok (blobPath : Str → Str) (h : IndexOk d) (maxBytes : Int) :
    ∃ w, newDiskTier blobPath maxBytes d = some w ∧ w.2.Ok := by
  obtain ⟨hloading, hmax⟩ := loading_foldr blobPath h { d with temps := ∅ } maxBytes
  obtain ⟨w, hcut, hmax', hstep, hfits⟩ :=
    cutShards_ok blobPath _ hloading.inStep (range (shardCount maxBytes))
  refine ⟨w, hcut, hstep, fun i hi => hfits i (.inl (mem_range.mpr ?_))⟩
  rw [hmax', hmax] at hi
  exact hi

/-! ## Operations -/

theorem commit_ok (blobPath : Str → Str) (h : t.Ok) (d : DiskDir) (temp : Nat) (wr : DiskWriter)
    (renames : Bool) : ∃ w a, commit blobPath d t temp wr renames = some (w, a) ∧ w.2.Ok := by
  unfold commit
  generalize hm : { wr.objectMeta with size := (wr.n : Int) } = m
  have hn : m.size = (wr.n : Int) := by rw [← hm]
  dsimp only
  split
  · exact ⟨_, _, rfl, h⟩
  case isFalse hcap =>
    -- the old entry of the key goes, then others until there is room
    have hgone := DiskRing.removeLocked_shrunk blobPath d.blobs (h.1 (t.shardOf m.key)) m.key
    have hnone := DiskRing.lookup_removeLocked_self blobPath d.blobs (t.shards (t.shardOf m.key)) m.key
    generalize DiskRing.removeLocked blobPath d.blobs (t.shards (t.shardOf m.key)) m.key = p
      at hgone hnone ⊢
    obtain ⟨files, s⟩ := p
    obtain ⟨files', s', hevict, hshrunk, hdone⟩ :=
      hgone.inStep.evict blobPath files wr.n (Nat.le_refl _)
    rw [makeRoom, hevict]
    dsimp only
    split
    · refine ⟨_, _, rfl, ?_⟩
      refine h.setShard ?_ fun _ => ?_
      · have hnew : s'.items.lookup m.key = none :=
          eq_none_iff_forall_not_mem.mpr fun m' hm' =>
            absurd (hshrunk.items _ m' hm') (by rw [hnone]; exact not_mem_none m')
        have hpush := hshrunk.inStep.pushFront rfl (hn ▸ Int.natCast_nonneg _) hnew
        exact ⟨hpush.cap, hpush.ledger, hpush.mirror, hpush.home, hpush.sizes⟩
      · have hmax : s'.maxBytes = (t.shards (t.shardOf m.key)).maxBytes :=
          hshrunk.inStep.cap.trans (h.1 _).cap.symm
        change s'.curBytes + m.size ≤ max s'.maxBytes 0
        obtain hroom | hzero := hshrunk.inStep.room hdone
        · omega
        · omega
    · refine ⟨_, _, rfl, ?_⟩
      exact h.shrunk (hgone.trans hshrunk)

def StartOk (w : DiskDir × FileTier) : FileOp → Prop
  | .restart _ => IndexOk w.1
  | _ => True

theorem resetShard_shrunk (keys : List Str) {p : FinMap Str Blob × DiskRing} (h : p.2.InStep maxBytes i) :
    DiskRing.Shrunk maxBytes i p.2
      (keys.foldl (fun p key => removeLocked blobPath p.1 p.2 key) p).2 := by
  induction keys generalizing p with
  | nil => exact .refl h
  | cons key keys ih =>
    have hgone := removeLocked_shrunk blobPath p.1 h key
    exact hgone.trans (ih hgone.inStep)

theorem ok_get (h : t.Ok) (d : DiskDir) (key : Str) : (get blobPath d t key).1.2.Ok := by
  unfold get
  dsimp only
  split
  · exact h
  case h_2 m hm =>
    have hmem : key ∈ (t.shards (t.shardOf key)).items :=
      AList.lookup_isSome.mp (isSome_of_mem hm)
    have hfront : DiskRing.Shrunk t.maxBytes (t.shardOf key) (t.shards (t.shardOf key))
        ((t.shards (t.shardOf key)).moveToFront key) :=
      ⟨(h.1 _).moveToFront hmem, Int.le_refl _, fun _ _ hm => hm⟩
    split
    · exact h.shrunk (hfront.trans (removeLocked_shrunk blobPath d.blobs hfront.inStep key))
    · exact h.shrunk hfront

theorem step_ok (blobPath : Str → Str) (h : t.Ok) (d : DiskDir) {op : FileOp} (hop : StartOk (d, t) op) :
    ∃ w a, step blobPath (d, t) op = some (w, a) ∧ w.2.Ok := by
  cases op with
  | create temp m | write temp p | abort temp | flushBegin =>
    simp only [step]
    repeat' split
    all_goals exact ⟨_, _, rfl, h⟩
  | commit temp renames =>
    simp only [step]
    split
    · exact ⟨_, _, rfl, h⟩
    case h_2 wr _ => exact commit_ok blobPath (t := { t with writers := t.writers.erase temp }) h d temp wr renames
  | get key => exact ⟨_, _, rfl, ok_get h d key⟩
  | delete key =>
    refine ⟨_, _, rfl, ?_⟩
    exact h.shrunk (removeLocked_shrunk blobPath d.blobs (h.1 _) key)
  | resetShard i =>
    refine ⟨_, _, rfl, ?_⟩
    exact h.shrunk (resetShard_shrunk (p := (d.blobs, t.shards i)) _ (h.1 i))
  | flushShard =>
    simp only [step]
    split
    · exact ⟨_, _, rfl, h⟩
    case h_2 i l _ =>
      split
      · refine ⟨_, _, rfl, ?_⟩
        have hclean : DiskRing.Shrunk t.maxBytes i (t.shards i) { t.shards i with dirty := false } :=
          ⟨⟨(h.1 i).cap, (h.1 i).ledger, (h.1 i).mirror, (h.1 i).home, (h.1 i).sizes⟩, Int.le_refl _,
            fun _ _ hm => hm⟩
        exact h.shrunk hclean
      · exact ⟨_, _, rfl, h⟩
  | flushWrite writes =>
    simp only [step]
    split
    · exact ⟨_, _, rfl, h⟩
    split
    · exact ⟨_, _, rfl, h⟩
    · split
      · exact ⟨_, _, rfl, h⟩
      · refine ⟨_, _, rfl, fun i => ?_, fun i hi => h.2 i hi⟩
        exact ⟨(h.1 i).cap, (h.1 i).ledger, (h.1 i).mirror, (h.1 i).home, (h.1 i).sizes⟩
  | restart maxBytes =>
    obtain ⟨w, hnew, hok⟩ := newDiskTier_ok blobPath hop maxBytes
    exact ⟨w, _, by rw [step, hnew]; rfl, hok⟩

theorem run_ok (blobPath : Str → Str) {w : Option (DiskDir × FileTier)} {ops : List FileOp}
    (h : ∃ p, w = some p ∧ p.2.Ok)
    (hops : Transition.Meets (next blobPath) (fun w op => ∀ p ∈ w, StartOk p op) w ops) :
    ∃ p, run (next blobPath) w ops = some p ∧ p.2.Ok := by
  have hstep : ∀ (w : Option (DiskDir × FileTier)) (op : FileOp), (∃ p, w = some p ∧ p.2.Ok) →
      (∀ p ∈ w, StartOk p op) → ∃ p, next blobPath w op = some p ∧ p.2.Ok := by
    rintro w op ⟨⟨d, t⟩, rfl, hok⟩ hop
    obtain ⟨p, a, hp, hok⟩ := step_ok blobPath hok d (hop (d, t) rfl)
    exact ⟨p, by rw [next, bind_some, hp]; rfl, hok⟩
  exact run_invariant hstep h hops

end FileTier

open FileTier

/-- **The books of both tiers are in order.** The list of each shard holds exactly the keys of its
map, each once, every key hashes to its shard, the counter is the sum of the sizes and equals its
copy, and it is within the budget; so `Bytes` is the size of what is resident, within the budget of
the tier, and `Len` counts every resident key once. For the disk tier: if no start of the run loads
an index in which two entries have one key and one size. -/
theorem tiers_in_order (ramBytes maxObjectBytes inflightBudget : Int) (ramOps : List RamTier.Op)
    (blobPath : Str → Str) (diskBytes : Int) (d : DiskDir) (ops : List FileOp) (hd : IndexOk d)
    (hops : Transition.Meets (next blobPath) (fun w op => ∀ p ∈ w, StartOk p op)
      (newDiskTier blobPath diskBytes d) ops) :
    Books RamEntry.bytes ramBytes
      (run RamTier.apply (.new ramBytes maxObjectBytes inflightBudget) ramOps).shelves ∧
    ∃ w, run (next blobPath) (newDiskTier blobPath diskBytes d) ops = some w ∧
      Books size w.2.maxBytes w.2.shelves := by
  refine ⟨RamTier.books ramBytes maxObjectBytes inflightBudget ramOps, ?_⟩
  obtain ⟨w, hw, hok⟩ := run_ok blobPath (newDiskTier_ok blobPath hd diskBytes) hops
  exact ⟨w, hw, hok.books⟩

def commitFlushRestart (key₁ key₂ : Str) : List FileOp :=
  [.create 0 { key := key₁ }, .write 0 [1], .commit 0 true,
    .create 1 { key := key₂ }, .write 1 [2], .commit 1 true,
    .flushBegin, .flushShard, .flushWrite true, .restart 100]

instance (w : DiskDir × FileTier) (op : FileOp) : Decidable (StartOk w op) :=
  match op with
  | .restart _ => inferInstanceAs (Decidable (IndexOk w.1))
  | .create _ _ | .write _ _ | .commit _ _ | .abort _ | .get _ | .delete _ | .resetShard _
  | .flushBegin | .flushShard | .flushWrite _ => inferInstanceAs (Decidable True)

theorem tiers_in_order_pair :
    Books RamEntry.bytes 10 (run RamTier.apply (.new 10 0 0)
      [.commit { key := lit "/a" } (lit "abc"), .get (lit "/a"), .delete (lit "/a")]).shelves ∧
    ∃ w, run (next id) (newDiskTier id 100 {}) (commitFlushRestart (lit "/a") (lit "/b")) =
        some w ∧ Books size w.2.maxBytes w.2.shelves :=
  tiers_in_order 10 0 0 _ id 100 {} (commitFlushRestart (lit "/a") (lit "/b")) (by decide) (by decide)

/-- **The restart counts an object twice.** The keys of two resident objects differ, but the index
names them alike. -/
theorem restart_counts_twice :
    ¬ ∀ (blobPath : Str → Str) (maxBytes : Int) (ops : List FileOp),
      ∃ w, run (next blobPath) (newDiskTier blobPath maxBytes {}) ops = some w ∧
        Books size w.2.maxBytes w.2.shelves := by
  intro h
  obtain ⟨w, hw, hbooks⟩ := h id 100 (commitFlushRestart [0x2f, 0xff] [0x2f, 0xef, 0xbf, 0xbd])
  have hsum : (w.2.shards 0).curBytes = FinMap.total size (w.2.shards 0).items :=
    (hbooks.shards 0 (shardCount_pos _)).ledger.sum
  have hcount : (run (next id) (newDiskTier id 100 {})
      (commitFlushRestart [0x2f, 0xff] [0x2f, 0xef, 0xbf, 0xbd])).map (fun w =>
        ((w.2.shards 0).curBytes, FinMap.total size (w.2.shards 0).items)) =
      some (2, 1) := by decide
  rw [hw] at hcount
  obtain ⟨htwo, hone⟩ := Prod.mk.inj (some.inj hcount)
  rw [htwo, hone] at hsum
  exact absurd hsum (by decide)

end Cadish
