import Cadish.Cache.Store

/-!
# Commits that store nothing, and objects that no tier takes

A writer of the store deletes its key from the sibling tier once its object is stored. **A commit
that stores nothing changes nothing, unless a rename fails on disk** (`commit_unchanged_iff`); an
object that either tier can hold is stored, unless its shard of the RAM tier is too small for it
(`put_stored_iff`).
-/

namespace Cadish

open Lossy Transition List DiskTier

namespace Store

variable (blobPath : Str → Str)

/-- `dedupWriter.Commit`. -/
def commit (s : Store) (w : TierWriter) (io : FileOutcome) : Store × Except Unit Bool :=
  match s.commitTier blobPath w io with
  | (s, .ok true) => (s.delete blobPath w.tier.sibling w.objectMeta.key, .ok true)
  | (s, r) => (s, r)

end Store

/-! ## A commit that stores nothing -/

namespace DiskTier

variable {blobPath : Str → Str} {t : DiskTier} {m : ObjectMeta} {tmp key : Str} {keys : List Str}

theorem mem_victims {cap n : Int} {l : List (Sigma fun _ : Str => ObjectMeta)} (h : key ∈ victims cap n l) :
    ∃ e ∈ l, e.1 = key := by
  induction l with
  | nil => cases h
  | cons e l ih =>
    rw [victims] at h
    split at h
    · obtain rfl | h := mem_cons.mp h
      · exact ⟨e, mem_cons_self, rfl⟩
      · exact (ih h).imp fun e he => ⟨mem_cons_of_mem _ he.1, he.2⟩
    · cases h

theorem mem_goes (h : key ∈ t.goes m tmp) : key ∈ (t.shard m.key).items := by
  obtain h | h := mem_append.mp h
  · split at h
    case isTrue hmem => exact mem_singleton.mp h ▸ hmem
    case isFalse => cases h
  · obtain ⟨e, he, rfl⟩ := mem_victims h
    exact (AList.mem_erase.mp (mem_map_of_mem (mem_reverse.mp he))).2

theorem goes_eq_nil (hfits : ¬ t.cap (t.shardOf m.key) < tmp.length) :
    t.goes m tmp = [] ↔ m.key ∉ (t.shard m.key).items ∧
      entryBytes (t.shard m.key).items.entries + tmp.length ≤ t.cap (t.shardOf m.key) := by
  have hvictims {cap n : Int} (hn : n ≤ cap) (l : List (Sigma fun _ : Str => ObjectMeta)) :
      victims cap n l = [] ↔ entryBytes l + n ≤ cap := by
    cases l <;> simp [victims, entryBytes, hn]
  rw [goes, append_eq_nil_iff, hvictims (Int.not_lt.mp hfits)]
  by_cases hmem : m.key ∈ (t.shard m.key).items
  · simp [hmem]
  · rw [FinMap.erase_of_lookup_eq_none (AList.lookup_eq_none.mpr hmem)]
    simp [entryBytes]

theorem contents_drops (h : key ∈ keys) :
    (run (step blobPath) t (keys.map .drop)).contents blobPath key = none := by
  induction keys generalizing t with
  | nil => cases h
  | cons k keys ih =>
    obtain rfl | h := mem_cons.mp h
    · by_contra hkey
      exact ((drops_removed blobPath _ keys).forgets blobPath).ne_none hkey
        (contents_removeLocked_self blobPath t key)
    · exact ih h

end DiskTier

namespace Store

variable {blobPath : Str → Str}

/-- Every entry on disk has its file. -/
def Whole (blobPath : Str → Str) (s : Store) : Prop :=
  ∀ i, ∀ key ∈ (s.disk.shards i).items, s.disk.contents blobPath key ≠ none

/-- The rename does not fail, or nothing has to go before it: the object is too large for its shard, or
its key is not there and there is room. -/
def Undisturbed (s : Store) : TierWriter → FileOutcome → Prop
  | .disk m tmp, .renameFails =>
    s.disk.cap (s.disk.shardOf m.key) < tmp.length ∨
      m.key ∉ (s.disk.shard m.key).items ∧
        entryBytes (s.disk.shard m.key).items.entries + tmp.length ≤
          s.disk.cap (s.disk.shardOf m.key)
  | _, _ => True

theorem commit_of_not_stored {s : Store} {w : TierWriter} {io : FileOutcome}
    (h : (s.commit blobPath w io).2 ≠ .ok true) : s.commit blobPath w io = s.commitTier blobPath w io := by
  rw [commit] at h ⊢
  split
  case h_1 heq =>
    rw [heq] at h
    exact absurd rfl h
  case h_2 heq => exact heq.symm

/-- **A commit that stores nothing changes nothing that can be read, unless a file is to be renamed and
cannot be.** Then the old copy of its key and what had to make room are gone, if there were any. -/
theorem commit_unchanged_iff (s : Store) (w : TierWriter) (io : FileOutcome)
    (hnot : (s.commit blobPath w io).2 ≠ .ok true) :
    let s' := (s.commit blobPath w io).1
    (s.Undisturbed w io → ∀ tier, s'.contents blobPath tier = s.contents blobPath tier) ∧
      (s.Whole blobPath → (∀ tier, s'.contents blobPath tier = s.contents blobPath tier) →
        s.Undisturbed w io) := by
  have heq := commit_of_not_stored hnot
  rw [heq] at hnot ⊢
  cases w with
  | ram w =>
    obtain ⟨-, hsame⟩ | ⟨hstored, -⟩ := s.ram.commit_cases w
    · refine ⟨fun _ tier => ?_, fun _ _ => trivial⟩
      cases tier with
      | ram => exact hsame
      | disk => rfl
    · exact absurd (congrArg Except.ok hstored) hnot
  | disk m tmp =>
    by_cases hcap : s.disk.cap (s.disk.shardOf m.key) < tmp.length
    · cases io with
      | closeFails => exact ⟨fun _ _ => rfl, fun _ _ => trivial⟩
      | ok =>
        rw [commitTier, commitFile, if_pos hcap]
        exact ⟨fun _ _ => rfl, fun _ _ => trivial⟩
      | renameFails =>
        rw [commitTier, commitFile, if_pos hcap]
        exact ⟨fun _ _ => rfl, fun _ _ => .inl hcap⟩
    · cases io with
      | closeFails => exact ⟨fun _ _ => rfl, fun _ _ => trivial⟩
      | ok =>
        rw [commitTier, commitFile, if_neg hcap] at hnot
        exact absurd rfl hnot
      | renameFails =>
        rw [commitTier, commitFile, if_neg hcap, commit_eq hcap, dropLast_concat]
        rw [Undisturbed, or_iff_right hcap, ← goes_eq_nil hcap]
        constructor
        · intro hnone tier
          rw [hnone]
          rfl
        · intro hwhole hsame
          refine eq_nil_iff_forall_not_mem.mpr fun key hkey => ?_
          have hread := hwhole _ key (mem_goes hkey)
          rw [← show _ = s.disk.contents blobPath from hsame .disk] at hread
          exact hread (contents_drops hkey)

def onePage : Store :=
  ((new id { ramMaxBytes := 9, diskMaxBytes := 9 } ∅ none).commit id (.disk { key := lit "a" } [7]) .ok).1

def largePage : TierWriter := .disk { key := lit "a" } (lit "0123456789")

theorem commit_unchanged_largePage : (onePage.commit id largePage .ok).2 ≠ .ok true ∧
    ∀ tier, (onePage.commit id largePage .ok).1.contents id tier = onePage.contents id tier := by
  have hnot : (onePage.commit id largePage .ok).2 ≠ .ok true := by
    change (.ok false : Except Unit Bool) ≠ .ok true
    simp
  exact ⟨hnot, (commit_unchanged_iff onePage _ _ hnot).1 trivial⟩

/-- **A rename that fails loses the copy that was to be replaced.** -/
theorem commit_loses_page :
    onePage.contents id .disk (lit "a") = some ({ key := lit "a", size := 1 }, [7]) ∧
      (onePage.commit id (.disk { key := lit "a" } [8]) .renameFails).2 = .error () ∧
      (onePage.commit id (.disk { key := lit "a" } [8]) .renameFails).1.contents id .disk (lit "a") = none :=
  ⟨rfl, rfl, rfl⟩

end Store

/-! ## Objects that no tier takes -/

namespace RamTier

variable {t : RamTier} {w : RamWriter} {p : Str}

/-- A writer has been given the body, and has given up only if that is longer than one object may be. -/
structure Wrote (t₀ : RamTier) (m : ObjectMeta) (body : Str) (t : RamTier) (w : RamWriter) : Prop where
  frame : ∃ n, t = { t₀ with inflightBytes := n }
  objectMeta : w.objectMeta = m
  state : w.overflow = true ∧ ¬ t₀.Allows body.length ∨
    w.overflow = false ∧ t₀.Allows body.length ∧ w.buf = body ∧ w.reserved = body.length ∧
      (0 < t₀.inflightBudget → t.inflightBytes = t₀.inflightBytes + body.length)

theorem reserve_ne_none {delta : Int} (hroom : 0 < t.inflightBudget → t.inflightBytes + delta ≤ t.inflightBudget) :
    t.reserve delta ≠ none := by
  rw [reserve]
  split
  · simp
  · rw [if_neg (by omega)]
    simp

theorem Wrote.write {t₀ : RamTier} {m : ObjectMeta} {body : Str} (h : Wrote t₀ m body t w) (p : Str)
    (hroom : 0 < t₀.inflightBudget → t₀.inflightBytes + (body ++ p).length ≤ t₀.inflightBudget) :
    Wrote t₀ m (body ++ p) (t.write w p).1 (t.write w p).2 := by
  obtain ⟨⟨n, rfl⟩, hmeta, hstate⟩ := h
  generalize ht : ({ t₀ with inflightBytes := n } : RamTier) = t at hstate ⊢
  have hallow (n : Int) : t.Allows n ↔ t₀.Allows n := by rw [← ht]; rfl
  have hbudget : t.inflightBudget = t₀.inflightBudget := by rw [← ht]
  refine ⟨⟨_, (t.write_frame w p).trans (by rw [← ht])⟩, (t.write_carries w p).1.trans hmeta, ?_⟩
  have hlength : ((body ++ p).length : Int) = body.length + p.length := by simp
  obtain ⟨hover, heq⟩ | ⟨hover, heq, hnone⟩ | ⟨hover, hallows, t', ht', heq⟩ := t.write_cases w p
  · obtain ⟨-, hlong⟩ | ⟨hnot, -⟩ := hstate
    · rw [heq]
      exact .inl ⟨hover, fun hallows => hlong fun hpos => by have := hallows hpos; omega⟩
    · rw [hover] at hnot
      cases hnot
  · obtain ⟨hgave, -⟩ | ⟨-, -, rfl, hreserved, hbytes⟩ := hstate
    · rw [hover] at hgave
      cases hgave
    · rw [heq]
      refine .inl ⟨rfl, fun hallows => ?_⟩
      obtain ⟨-, hrefused⟩ := hnone ((hallow _).mpr hallows)
      refine reserve_ne_none (fun hpos => ?_) hrefused
      omega
  · obtain ⟨hgave, -⟩ | ⟨-, -, rfl, hreserved, hbytes⟩ := hstate
    · rw [hover] at hgave
      cases hgave
    · rw [heq]
      refine .inr ⟨hover, (hallow _).mp hallows, rfl, Int.max_eq_right (by omega), fun hpos => ?_⟩
      dsimp only
      obtain ⟨-, hsome⟩ | ⟨hshort, rfl⟩ := ht'
      · have := (t.reserve_eq hsome).2 (hbudget ▸ hpos)
        omega
      · omega

def writeAll (t : RamTier) (w : RamWriter) (chunks : List Str) : RamTier × RamWriter :=
  chunks.foldl (fun p c => p.1.write p.2 c) (t, w)

theorem Wrote.writeAll {t₀ : RamTier} {m : ObjectMeta} {body : Str} (chunks : List Str)
    (h : Wrote t₀ m body t w) (hroom : 0 < t₀.inflightBudget →
      t₀.inflightBytes + (body ++ chunks.flatten).length ≤ t₀.inflightBudget) :
    Wrote t₀ m (body ++ chunks.flatten) (t.writeAll w chunks).1 (t.writeAll w chunks).2 := by
  induction chunks generalizing t w body with
  | nil =>
    rw [flatten_nil, append_nil]
    exact h
  | cons p chunks ih =>
    rw [flatten_cons, ← append_assoc] at hroom ⊢
    refine ih (h.write p fun hpos => ?_) hroom
    have := hroom hpos
    rw [length_append] at this
    omega

end RamTier

namespace Store

variable (blobPath : Str → Str)

/-- `Writer`, `Write` for each part of the body, and `Commit`, with files that do not fail. -/
def put (s : Store) (m : ObjectMeta) (chunks : List Str) : Store × Except Unit Bool :=
  let (s, w) := chunks.foldl (fun p c => p.1.write p.2 c) (s, s.writer m)
  s.commit blobPath w .ok

variable {blobPath} {s : Store} {m : ObjectMeta} {chunks : List Str}

theorem foldl_write_ram (chunks : List Str) (s : Store) (w : RamWriter) :
    chunks.foldl (fun p c => p.1.write p.2 c) (s, TierWriter.ram w) =
      ({ s with ram := (s.ram.writeAll w chunks).1 }, .ram (s.ram.writeAll w chunks).2) := by
  induction chunks generalizing s w with
  | nil => rfl
  | cons p chunks ih => exact ih _ _

theorem foldl_write_disk (chunks : List Str) (s : Store) (m : ObjectMeta) (tmp : Str) :
    chunks.foldl (fun p c => p.1.write p.2 c) (s, TierWriter.disk m tmp) =
      (s, .disk m (tmp ++ chunks.flatten)) := by
  induction chunks generalizing tmp with
  | nil => simp
  | cons p chunks ih =>
    rw [flatten_cons, ← append_assoc]
    exact ih (tmp ++ p)

theorem commit_stored_iff (w : TierWriter) (io : FileOutcome) :
    (s.commit blobPath w io).2 = .ok true ↔ (s.commitTier blobPath w io).2 = .ok true := by
  rw [commit]
  split
  case h_1 heq => simp [heq]
  case h_2 heq => simp [heq]

theorem put_disk (h : s.tierFor m = .disk) (hdisk : (chunks.flatten.length : Int) ≤ s.disk.cap (s.disk.shardOf m.key)) :
    (s.put blobPath m chunks).2 = .ok true := by
  rw [put, writer, h, foldl_write_disk, nil_append]
  refine (commit_stored_iff _ _).mpr ?_
  rw [commitTier, commitFile, if_neg (Int.not_lt.mpr hdisk)]

theorem put_ram_iff (h : s.tierFor m = .ram) (hroom : 0 < s.ram.inflightBudget →
      s.ram.inflightBytes + chunks.flatten.length ≤ s.ram.inflightBudget) :
    (s.put blobPath m chunks).2 = .ok true ↔ s.ram.Allows chunks.flatten.length ∧
      (chunks.flatten.length : Int) ≤ (s.ram.shard m.key).maxBytes := by
  have hstart : RamTier.Wrote s.ram m [] s.ram (RamTier.writer m) :=
    ⟨⟨_, rfl⟩, rfl, .inr ⟨rfl, fun hpos => Int.le_of_lt hpos, rfl, rfl, fun _ => (Int.add_zero _).symm⟩⟩
  obtain ⟨⟨n, hframe⟩, hmeta, hstate⟩ := hstart.writeAll chunks hroom
  rw [nil_append] at hstate
  have hput : (s.put blobPath m chunks).2 = .ok true ↔
      ((s.ram.writeAll (RamTier.writer m) chunks).1.commit (s.ram.writeAll (RamTier.writer m) chunks).2).2 = true := by
    rw [put, writer, h, foldl_write_ram]
    refine (commit_stored_iff _ _).trans ?_
    rw [commitTier]
    simp
  rw [hput, RamTier.commit_stored_iff, hmeta, hframe]
  obtain ⟨hover, hlong⟩ | ⟨hover, hallows, hbuf, -⟩ := hstate
  · simp only [hover, hlong, Bool.true_eq_false, false_and]
  · rw [hbuf]
    simp only [hover, hallows]
    rfl

/-- **An object that the disk tier could hold is stored exactly if it is routed there, or is within both
bounds of RAM**: the one on an object, and the part of the budget that the shard of its key has. -/
theorem put_stored_iff (s : Store) (m : ObjectMeta) (chunks : List Str) (hsize : m.size = chunks.flatten.length)
    (hdisk : m.size ≤ s.disk.cap (s.disk.shardOf m.key))
    (hroom : 0 < s.ram.inflightBudget → s.ram.inflightBytes + m.size ≤ s.ram.inflightBudget) :
    (s.put blobPath m chunks).2 = .ok true ↔
      s.tierFor m = .disk ∨ s.ram.Allows m.size ∧ m.size ≤ (s.ram.shard m.key).maxBytes := by
  rw [hsize] at hdisk hroom ⊢
  cases htier : s.tierFor m with
  | disk => simp [put_disk htier hdisk]
  | ram => simp [put_ram_iff htier hroom]

def roomyStore : Store := .new id { ramMaxBytes := 64 * 2 ^ 20, diskMaxBytes := 64 * 2 ^ 30 } ∅ none

theorem put_page : ({ key := lit "a", size := 1 } : ObjectMeta).size = [[(7 : UInt8)]].flatten.length ∧
    (roomyStore.put id { key := lit "a", size := 1 } [[7]]).2 = .ok true :=
  ⟨rfl, (put_stored_iff roomyStore _ _ rfl (by decide) (by decide)).mpr (.inl rfl)⟩

def largeImage : ObjectMeta := { key := lit "a.jpg", size := 1048577 }

/-- **An image larger than a shard of the RAM tier is cached nowhere**: it is routed to memory for its
extension and refused there. -/
theorem put_large_image :
    largeImage.size = [replicate 1048577 (0 : UInt8)].flatten.length ∧
      largeImage.size ≤ roomyStore.disk.cap (roomyStore.disk.shardOf largeImage.key) ∧
      roomyStore.ram.inflightBytes + largeImage.size ≤ roomyStore.ram.inflightBudget ∧
      (roomyStore.put id largeImage [replicate 1048577 0]).2 ≠ .ok true := by
  have hlength : ([replicate 1048577 (0 : UInt8)].flatten.length : Int) = largeImage.size := by
    rw [flatten_cons, flatten_nil, append_nil, length_replicate]
    rfl
  have hroom : roomyStore.ram.inflightBytes + largeImage.size ≤ roomyStore.ram.inflightBudget := by decide
  refine ⟨hlength.symm, by decide, hroom, ?_⟩
  rw [Ne, put_ram_iff (by decide) (by rw [hlength]; exact fun _ => hroom), hlength]
  exact fun hfits => absurd hfits.2 (by decide)

end Store

end Cadish
