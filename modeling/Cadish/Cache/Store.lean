import Cadish.Cache.Disk
import Cadish.Cache.Ram

/-!
# The two-tier store

A store routes each object to one of its tiers and looks a key up in RAM before disk; a commit *that
has stored its object* deletes the key from the sibling tier. A commit that discards its object
**returns no error and leaves the old copy** (`Store.commitTier_cases`).
-/

namespace Cadish

open Lossy DiskTier Transition

structure RouterConfig where
  ramMaxBytes : Int
  diskMaxBytes : Int
  smallObjectThreshold : Int := 0
  ramMaxObjectBytes : Int := 0
  ramInflightBudget : Int := 0
  tierExtensions : FinMap Str Tier := ∅

def pathExt (s : Str) : Str :=
  let base := s.reverse.takeWhile (· != Str.byte '/')
  if base.elem (Str.byte '.') then
    Str.byte '.' :: (base.takeWhile (· != Str.byte '.')).reverse
  else []

def ramExtensions : List Str :=
  [lit ".m3u8", lit ".jpg", lit ".jpeg", lit ".webp", lit ".png", lit ".gif"]

def defaultRAMMaxObjectBytes : Int := 64 * 2 ^ 20

def RouterConfig.resolved (cfg : RouterConfig) : RouterConfig :=
  let object := if cfg.ramMaxObjectBytes ≤ 0 then defaultRAMMaxObjectBytes else cfg.ramMaxObjectBytes
  { cfg with
    ramMaxObjectBytes := if cfg.ramMaxBytes < object then cfg.ramMaxBytes else object
    ramInflightBudget := if cfg.ramInflightBudget ≤ 0 then cfg.ramMaxBytes else cfg.ramInflightBudget }

structure Store where
  cfg : RouterConfig
  ram : RamTier
  disk : DiskTier

inductive TierWriter where
  | ram (w : RamWriter)
  | disk (m : ObjectMeta) (tmp : Str)

def TierWriter.tier : TierWriter → Tier
  | .ram _ => .ram
  | .disk _ _ => .disk

def TierWriter.objectMeta : TierWriter → ObjectMeta
  | .ram w => w.objectMeta
  | .disk m _ => m

/-- How the files behave in a commit to disk. -/
inductive FileOutcome where
  | ok
  | closeFails
  | renameFails
deriving DecidableEq, Repr

def Tier.sibling : Tier → Tier
  | .ram => .disk
  | .disk => .ram

theorem Tier.eq_or_eq_sibling (t t' : Tier) : t' = t ∨ t' = t.sibling := by
  cases t <;> cases t' <;> simp [sibling]

namespace DiskTier

def commitFile (blobPath : Str → Str) (t : DiskTier) (m : ObjectMeta) (tmp : Str) :
    FileOutcome → DiskTier × Except Unit Bool
  | .closeFails => (t, .error ())
  | .ok =>
    if t.cap (t.shardOf m.key) < tmp.length then (t, .ok false)
    else (run (step blobPath) t (t.commit m tmp), .ok true)
  | .renameFails =>
    if t.cap (t.shardOf m.key) < tmp.length then (t, .ok false)
    -- the replaced entry and the evicted ones are gone by then
    else (run (step blobPath) t (t.commit m tmp).dropLast, .error ())

end DiskTier

namespace Store

variable (s : Store) (m : ObjectMeta) (w : TierWriter)

def pickTier (key : Str) (size : Int) : Tier :=
  if ramExtensions.elem (Str.toLower (pathExt key)) then
    if 0 ≤ size ∧ s.cfg.ramMaxObjectBytes < size then .disk else .ram
  else if 0 ≤ size ∧ size ≤ s.cfg.smallObjectThreshold then .ram
  else .disk

def resolveTier (tier : Tier) (size : Int) : Tier :=
  match tier with
  | .disk => if s.cfg.diskMaxBytes ≤ 0 then .ram else .disk
  | .ram => if 0 ≤ size ∧ s.cfg.ramMaxObjectBytes < size then .disk else .ram

/-- `tierFor`: a placement of the request, then of the extension, then the policy. -/
def tierFor : Tier :=
  match m.tier with
  | some tier => s.resolveTier tier m.size
  | none =>
    match s.cfg.tierExtensions.lookup (Str.toLower (pathExt m.key)) with
    | some tier => s.resolveTier tier m.size
    | none => s.pickTier m.key m.size

def writer : TierWriter :=
  match s.tierFor m with
  | .ram => .ram (RamTier.writer m)
  | .disk => .disk m []

def write (p : Str) : Store × TierWriter :=
  match w with
  | .ram w => let (ram, w) := s.ram.write w p; ({ s with ram := ram }, .ram w)
  | .disk m tmp => (s, .disk m (tmp ++ p))

def abort : Store :=
  match w with
  | .ram w => { s with ram := s.ram.abort w }
  | .disk _ _ => s

section Files

variable (blobPath : Str → Str)

/-- `NewStore`: memory is empty, the disk tier is loaded from its directory. -/
def new (cfg : RouterConfig) (blobs : FinMap Str Blob) (index : Option (List ObjectMeta)) : Store :=
  let cfg := cfg.resolved
  ⟨cfg, .new cfg.ramMaxBytes cfg.ramMaxObjectBytes cfg.ramInflightBudget,
    .load blobPath cfg.diskMaxBytes blobs index⟩

/-- `TierWriter.Commit`, the first half of a `dedupWriter`'s: an error, or what `Stored` says. -/
def commitTier (s : Store) (w : TierWriter) (io : FileOutcome) : Store × Except Unit Bool :=
  match w with
  | .ram w => let (ram, stored) := s.ram.commit w; ({ s with ram := ram }, .ok stored)
  | .disk m tmp => let (disk, r) := s.disk.commitFile blobPath m tmp io; ({ s with disk := disk }, r)

def delete (s : Store) (tier : Tier) (key : Str) : Store :=
  match tier with
  | .ram => { s with ram := s.ram.delete key }
  | .disk => { s with disk := run (DiskTier.step blobPath) s.disk (DiskTier.delete key) }

def contents (s : Store) : Tier → Str → Option Object
  | .ram => s.ram.contents
  | .disk => s.disk.contents blobPath

/-- What `GetTier` hands out, and from where. -/
def getTier (s : Store) (key : Str) : Option (Object × Tier) :=
  match s.contents blobPath .ram key with
  | some x => some (x, .ram)
  | none => (s.contents blobPath .disk key).map (·, .disk)

/-- What `GetTier` leaves behind: a hit is marked, and an entry without its blob goes. -/
def touch (s : Store) (key : Str) : Store :=
  match s.contents blobPath .ram key with
  | some _ => { s with ram := s.ram.get key }
  | none =>
    { s with disk := run (step blobPath) s.disk (get blobPath s.disk key) }

end Files

/-- The tier written to will take the object: the writer has not given up, and the object is not
larger than the shard of its key. -/
def Takes (s : Store) : TierWriter → Prop
  | .ram w =>
    w.overflow = false ∧ (w.buf.length : Int) ≤ (s.ram.shard w.objectMeta.key).maxBytes
  | .disk m tmp => (tmp.length : Int) ≤ s.disk.cap (s.disk.shardOf m.key)

instance (s : Store) (w : TierWriter) : Decidable (s.Takes w) :=
  match w with
  | .ram _ => inferInstanceAs (Decidable (_ ∧ _))
  | .disk _ _ => inferInstanceAs (Decidable (_ ≤ _))

end Store

/-! ## Writers -/

/-- What a writer has been given, unless it has given up. -/
def TierWriter.Carries (w : TierWriter) (body : Str) : Prop :=
  match w with
  | .ram w => w.overflow = false → w.buf = body
  | .disk _ tmp => tmp = body

theorem RamTier.write_carries (t : RamTier) (w : RamWriter) (p : Str) :
    (t.write w p).2.objectMeta = w.objectMeta ∧
      ((t.write w p).2.overflow = false → w.overflow = false ∧ (t.write w p).2.buf = w.buf ++ p) := by
  obtain ⟨hover, heq⟩ | ⟨-, heq, -⟩ | ⟨hover, -, t', -, heq⟩ := t.write_cases w p
  · rw [heq]
    exact ⟨rfl, fun h => absurd hover (by rw [h]; exact Bool.false_ne_true)⟩
  · rw [heq]
    exact ⟨rfl, fun h => by cases h⟩
  · rw [heq]
    exact ⟨rfl, fun _ => ⟨hover, rfl⟩⟩

namespace Store

variable {blobPath : Str → Str} (s : Store)

theorem writer_carries (m : ObjectMeta) : (s.writer m).Carries [] := by
  rw [writer]
  split
  · exact fun _ => rfl
  · rfl

variable (t : Tier) (w : TierWriter) (key p : Str) (tier : Tier)

theorem write_objectMeta : (s.write w p).2.objectMeta = w.objectMeta := by
  cases w with
  | ram w => exact (s.ram.write_carries w p).1
  | disk m tmp => rfl

theorem write_carries {w : TierWriter} {body : Str} (h : w.Carries body) (p : Str) :
    (s.write w p).2.Carries (body ++ p) := by
  cases w with
  | ram w =>
    intro hover
    obtain ⟨hover, hbuf⟩ := (s.ram.write_carries w p).2 hover
    exact hbuf.trans (by rw [h hover])
  | disk m tmp =>
    exact congrArg (· ++ p) h

/-! ## Contents -/

theorem contents_write : (s.write w p).1.contents blobPath tier = s.contents blobPath tier := by
  cases w with
  | ram w =>
    cases tier with
    | ram => exact s.ram.contents_write w p
    | disk => rfl
  | disk m tmp => rfl

theorem contents_abort : (s.abort w).contents blobPath tier = s.contents blobPath tier := by
  cases w with
  | ram w =>
    cases tier with
    | ram => exact s.ram.contents_abort w
    | disk => rfl
  | disk m tmp => rfl

theorem delete_forgets :
    Forgets (s.contents blobPath tier) ((s.delete blobPath t key).contents blobPath tier) := by
  cases t with
  | ram =>
    cases tier with
    | ram => exact s.ram.delete_forgets key
    | disk => exact .refl _
  | disk =>
    cases tier with
    | ram => exact .refl _
    | disk => exact (DiskTier.drops_removed blobPath s.disk [key]).forgets blobPath

theorem contents_delete_self : (s.delete blobPath t key).contents blobPath t key = none := by
  cases t with
  | ram => exact s.ram.contents_delete_self key
  | disk => exact DiskTier.contents_removeLocked_self blobPath s.disk key

theorem touch_forgets :
    Forgets (s.contents blobPath tier) ((s.touch blobPath key).contents blobPath tier) := by
  rw [touch]
  split
  case h_1 =>
    cases tier with
    | ram => exact s.ram.get_forgets key
    | disk => exact .refl _
  case h_2 =>
    cases tier with
    | ram => exact .refl _
    | disk => exact (get_removed blobPath s.disk key).forgets blobPath

theorem mem_of_getTier {key : Str} {x : Object} {tier : Tier}
    (h : s.getTier blobPath key = some (x, tier)) : x ∈ s.contents blobPath tier key := by
  rw [getTier] at h
  split at h
  case h_1 hram =>
    cases h
    exact hram
  case h_2 =>
    obtain ⟨y, hy, hyx⟩ := Option.map_eq_some_iff.mp h
    cases hyx
    exact hy

end Store

/-! ## Commits -/

namespace DiskTier

variable {blobPath : Str → Str}

/-- The keys that a commit drops before it renames its file: its own, and those that make room. -/
def goes (t : DiskTier) (m : ObjectMeta) (tmp : Str) : List Str :=
  (if m.key ∈ (t.shard m.key).items then [m.key] else []) ++
    victims (t.cap (t.shardOf m.key)) tmp.length ((t.shard m.key).items.erase m.key).entries.reverse

theorem commit_eq {t : DiskTier} {m : ObjectMeta} {tmp : Str}
    (h : ¬ t.cap (t.shardOf m.key) < tmp.length) :
    t.commit m tmp = (t.goes m tmp).map .drop ++ [.install m tmp] := by
  rw [commit, goes]
  simp only [if_neg h]
  split <;> rfl

theorem commitFile_cases (hinj : Function.Injective blobPath) (t : DiskTier) (m : ObjectMeta)
    (tmp : Str) (io : FileOutcome) :
    (∃ t', t.commitFile blobPath m tmp io = (t', .error ()) ∧
        Forgets (t.contents blobPath) (t'.contents blobPath)) ∨
      (t.commitFile blobPath m tmp io = (t, .ok false) ∧ t.cap (t.shardOf m.key) < tmp.length) ∨
      ∃ t', t.commitFile blobPath m tmp io = (t', .ok true) ∧
        Puts m.key (m.with tmp) (t.contents blobPath) (t'.contents blobPath) := by
  cases io with
  | closeFails => exact .inl ⟨t, rfl, .refl _⟩
  | ok =>
    rw [commitFile]
    split
    case isTrue hcap => exact .inr (.inl ⟨rfl, hcap⟩)
    case isFalse hcap =>
      refine .inr (.inr ⟨_, rfl, ?_⟩)
      rw [commit_eq hcap, run_append]
      exact .of_forgets ((drops_removed blobPath t _).forgets blobPath) (install_puts hinj _ m tmp)
  | renameFails =>
    rw [commitFile]
    split
    case isTrue hcap => exact .inr (.inl ⟨rfl, hcap⟩)
    case isFalse hcap =>
      refine .inl ⟨_, rfl, ?_⟩
      rw [commit_eq hcap, List.dropLast_concat]
      exact (drops_removed blobPath t _).forgets blobPath

end DiskTier

namespace Store

variable {blobPath : Str → Str}

inductive Committed (blobPath : Str → Str) (s : Store) (w : TierWriter) (body : Str) :
    Store × Except Unit Bool → Prop where
  | failed {s' : Store}
      (forgets : ∀ tier, Forgets (s.contents blobPath tier) (s'.contents blobPath tier)) :
      Committed blobPath s w body (s', .error ())
  | discarded {s' : Store} (refused : ¬ s.Takes w)
      (same : ∀ tier, s'.contents blobPath tier = s.contents blobPath tier) :
      Committed blobPath s w body (s', .ok false)
  | stored {s' : Store}
      (puts : Puts w.objectMeta.key (w.objectMeta.with body) (s.contents blobPath w.tier)
        (s'.contents blobPath w.tier))
      (sibling : s'.contents blobPath w.tier.sibling = s.contents blobPath w.tier.sibling) :
      Committed blobPath s w body (s', .ok true)

theorem commitTier_cases (hinj : Function.Injective blobPath) (s : Store) {w : TierWriter}
    {body : Str} (hw : w.Carries body) (io : FileOutcome) :
    Committed blobPath s w body (s.commitTier blobPath w io) := by
  cases w with
  | ram w =>
    rw [commitTier]
    obtain ⟨hdiscards, hsame⟩ | ⟨hstores, hover, hputs⟩ := s.ram.commit_cases w
    · simp only [hdiscards]
      refine .discarded (fun htakes => ?_) fun tier => ?_
      · rw [(s.ram.commit_stored_iff w).mpr htakes] at hdiscards
        cases hdiscards
      · cases tier with
        | ram => exact hsame
        | disk => rfl
    · simp only [hstores]
      rw [hw hover] at hputs
      exact .stored hputs rfl
  | disk m tmp =>
    obtain rfl : tmp = body := hw
    rw [commitTier]
    obtain ⟨disk, heq, hforgets⟩ | ⟨heq, hcap⟩ | ⟨disk, heq, hputs⟩ :=
      s.disk.commitFile_cases hinj m tmp io
    · simp only [heq]
      refine .failed fun tier => ?_
      cases tier with
      | ram => exact .refl _
      | disk => exact hforgets
    · simp only [heq]
      exact .discarded (fun htakes => absurd hcap (Int.not_lt.mpr htakes)) fun tier => rfl
    · simp only [heq]
      exact .stored hputs rfl

end Store

end Cadish
