import Cadish.Cache.DiskBooks

/-!
# What an operation of the disk tier leaves alone

An operation removes entries with their blobs, and a commit puts one blob; every other entry keeps
its file (`step_frame`). It looks only at the files of its own entries and writers: on two
directories that have these in common (`Serves`) it answers alike (`step_agrees`).
-/

namespace Cadish

open Option AList DiskRing

namespace DiskRing

variable {blobPath : Str → Str}

theorem removeLocked_ring (files files' : FinMap Str Blob) (s : DiskRing) (key : Str) :
    (removeLocked blobPath files s key).2 = (removeLocked blobPath files' s key).2 := by
  unfold removeLocked
  split <;> rfl

theorem round_ring (blobPath : Str → Str) (n : Int) (files files' : FinMap Str Blob) (s : DiskRing) :
    (round blobPath n files s).map Prod.snd = (round blobPath n files' s).map Prod.snd := by
  rw [round, round]
  split
  · rfl
  · rw [Option.map_map, Option.map_map]
    exact Option.map_congr fun key _ => removeLocked_ring files files' s key

theorem evict_ring {n : Int} {fuel : Nat} {files files' : FinMap Str Blob} {s s' : DiskRing}
    (hevict : evict blobPath n fuel files s = some (files', s')) (other : FinMap Str Blob) :
    ∃ other', evict blobPath n fuel other s = some (other', s') := by
  refine evict_induction (P := fun fuel _ s => ∀ other, ∃ other',
    evict blobPath n fuel other s = some (other', s')) ?_ ?_ hevict other
  · intro fuel hround other
    have hring := round_ring blobPath n files' other s'
    rw [hround, map_none, eq_comm, map_eq_none_iff] at hring
    exact ⟨other, evict_of_done hring fuel⟩
  · intro fuel files s p hround ih other
    have hring := round_ring blobPath n files other s
    rw [hround, map_some, eq_comm, map_eq_some_iff] at hring
    obtain ⟨p', hround', hsame⟩ := hring
    obtain ⟨other', hrest⟩ := ih p'.1
    exact ⟨other', (evict_succ hround' fuel).trans (hsame ▸ hrest)⟩

end DiskRing

namespace FileTier

variable {blobPath : Str → Str} {d d' e e' : DiskDir} {t u : FileTier}

variable {files files' : FinMap Str Blob} {a : FileAnswer} {temp : Nat} {wr : DiskWriter} {op : FileOp}

/-! ## Frames -/

/-- What an operation has done to the files: entries have gone with their blobs, and one blob may be
new. -/
structure Frame (blobPath : Str → Str) (files files' : FinMap Str Blob) (t u : FileTier)
    (new : Option (Str × Blob)) : Prop where
  others : ∀ file, (∀ p ∈ new, blobPath p.1 ≠ file) →
    files'.lookup file = files.lookup file ∨ files'.lookup file = none
  entries : ∀ key, (∀ p ∈ new, p.1 ≠ key) → ∀ m ∈ u.entry key,
    m ∈ t.entry key ∧ files'.lookup (blobPath key) = files.lookup (blobPath key)
  fresh : ∀ p ∈ new, files'.lookup (blobPath p.1) = some p.2
  keyed : ∀ p ∈ new, ∀ m ∈ u.entry p.1, m.key = p.1

theorem Frame.refl (files : FinMap Str Blob) (t : FileTier) : Frame blobPath files files t t none :=
  ⟨fun _ _ => .inl rfl, fun _ _ _ hm => ⟨hm, rfl⟩, fun _ hp => absurd hp (not_mem_none _),
    fun _ hp => absurd hp (not_mem_none _)⟩

theorem Frame.same {new : Option (Str × Blob)} (hfiles : files' = files)
    (hentry : ∀ key, u.entry key = t.entry key) (hnew : new = none) :
    Frame blobPath files files' t u new := by
  rw [hfiles, hnew]
  exact ⟨fun _ _ => .inl rfl, fun key _ m hm => ⟨hentry key ▸ hm, rfl⟩,
    fun _ hp => absurd hp (not_mem_none _), fun _ hp => absurd hp (not_mem_none _)⟩

theorem Frame.trans {files₁ files₂ files₃ : FinMap Str Blob} {t₁ t₂ t₃ : FileTier}
    (h : Frame blobPath files₁ files₂ t₁ t₂ none) (h' : Frame blobPath files₂ files₃ t₂ t₃ none) :
    Frame blobPath files₁ files₃ t₁ t₃ none := by
  refine ⟨fun file hnew => ?_, fun key hnew m hm => ?_, fun _ hp => absurd hp (not_mem_none _),
    fun _ hp => absurd hp (not_mem_none _)⟩
  · obtain hsame | hgone := h'.others file hnew
    · rw [hsame]
      exact h.others file hnew
    · exact .inr hgone
  · obtain ⟨hm, hsame⟩ := h'.entries key hnew m hm
    obtain ⟨hm, hsame'⟩ := h.entries key hnew m hm
    exact ⟨hm, hsame.trans hsame'⟩

theorem removeLocked_frame (hinj : Function.Injective blobPath) (h : t.InStep)
    (files : FinMap Str Blob) (i : Nat) (key : Str) :
    Frame blobPath files (removeLocked blobPath files (t.shards i) key).1 t
      (t.setShard i (removeLocked blobPath files (t.shards i) key).2) none := by
  obtain ⟨-, hsame⟩ | ⟨m, s, hm, hitems, hremoved⟩ :=
    removeLocked_cases blobPath files (t.shards i) key
  · rw [hsame, setShard_self]
    exact .refl files t
  · rw [hremoved]
    refine ⟨fun file _ => ?_, fun k _ m' hm' => ?_, fun _ hp => absurd hp (not_mem_none _),
      fun _ hp => absurd hp (not_mem_none _)⟩
    · rw [FinMap.lookup_erase_ite]
      split
      · exact .inr rfl
      · exact .inl rfl
    · rw [(entry_erase h hm hitems k).2] at hm'
      split at hm'
      · cases hm'
      case isFalse hne => exact ⟨hm', lookup_erase_ne (hinj.ne hne)⟩

def Trimmed (blobPath : Str → Str) (files files' : FinMap Str Blob) (t u : FileTier) : Prop :=
  u.InStep ∧ Frame blobPath files files' t u none

theorem Trimmed.removeLocked (hinj : Function.Injective blobPath) {i : Nat} {s : DiskRing}
    (h : Trimmed blobPath files files' t (t.setShard i s)) (key : Str) :
    Trimmed blobPath files (removeLocked blobPath files' s key).1 t
      (t.setShard i (removeLocked blobPath files' s key).2) := by
  obtain ⟨hstep, hframe⟩ := h
  have hshard : (t.setShard i s).shards i = s := by rw [shards_setShard, if_pos rfl]
  have hgone := removeLocked_frame hinj hstep files' i key
  rw [hshard, setShard_setShard] at hgone
  refine ⟨?_, hframe.trans hgone⟩
  have hs := hstep i
  rw [hshard] at hs
  have hkept := hstep.setShard (removeLocked_shrunk blobPath files' hs key).inStep
  rwa [setShard_setShard] at hkept

theorem Trimmed.evict (hinj : Function.Injective blobPath) {files₁ files₂ : FinMap Str Blob}
    {i fuel : Nat} {n : Int} {s s' : DiskRing} (h : Trimmed blobPath files files₁ t (t.setShard i s))
    (hevict : evict blobPath n fuel files₁ s = some (files₂, s')) :
    Trimmed blobPath files files₂ t (t.setShard i s') := by
  have hstep : ∀ files' s key, Trimmed blobPath files files' t (t.setShard i s) →
      Trimmed blobPath files (DiskRing.removeLocked blobPath files' s key).1 t
        (t.setShard i (DiskRing.removeLocked blobPath files' s key).2) :=
    fun _ _ key h => h.removeLocked hinj key
  exact DiskRing.evict_kept hstep h hevict

theorem commit_cases (hinj : Function.Injective blobPath) (h : t.Ok) (d : DiskDir) (temp : Nat)
    (wr : DiskWriter) (renames : Bool) :
    commit blobPath d t temp wr renames = some (({ d with temps := d.temps.erase temp }, t), .stored false) ∨
    ∃ files s, Trimmed blobPath d.blobs files t (t.setShard (t.shardOf wr.objectMeta.key) s) ∧
      ((∃ body, d.temps.lookup temp = some body ∧ renames = true ∧
          commit blobPath d t temp wr renames = some
            (({ d with
                blobs := files.insert (blobPath wr.objectMeta.key)
                  ⟨{ wr.objectMeta with size := wr.n }, body⟩
                temps := d.temps.erase temp },
              t.setShard (t.shardOf wr.objectMeta.key)
                { s.pushFront { wr.objectMeta with size := wr.n } with dirty := true }), .stored true)) ∨
        ((d.temps.lookup temp = none ∨ renames = false) ∧
          commit blobPath d t temp wr renames = some
            (({ d with blobs := files, temps := d.temps.erase temp },
              t.setShard (t.shardOf wr.objectMeta.key) s), .failed))) := by
  have hself : Trimmed blobPath d.blobs d.blobs t
      (t.setShard (t.shardOf wr.objectMeta.key) (t.shards (t.shardOf wr.objectMeta.key))) := by
    rw [setShard_self]
    exact ⟨h.1, .refl _ _⟩
  have hgone := hself.removeLocked hinj wr.objectMeta.key
  have hs := removeLocked_shrunk blobPath d.blobs (h.1 (t.shardOf wr.objectMeta.key))
    wr.objectMeta.key
  unfold commit
  dsimp only
  split
  · exact .inl rfl
  case isFalse =>
    refine .inr ?_
    generalize removeLocked blobPath d.blobs (t.shards (t.shardOf wr.objectMeta.key))
      wr.objectMeta.key = p at hgone hs ⊢
    obtain ⟨files, s⟩ := p
    obtain ⟨files', s', hevict, -, -⟩ := hs.inStep.evict blobPath files wr.n (Nat.le_refl _)
    refine ⟨files', s', hgone.evict hinj hevict, ?_⟩
    rw [makeRoom, hevict]
    cases htemp : d.temps.lookup temp with
    | none => exact .inr ⟨.inl rfl, rfl⟩
    | some body =>
      cases renames with
      | true => exact .inl ⟨body, rfl, rfl, rfl⟩
      | false => exact .inr ⟨.inr rfl, rfl⟩

def committed (d : DiskDir) (temp : Nat) (wr : DiskWriter) : FileAnswer → Option (Str × Blob)
  | .stored true =>
    (d.temps.lookup temp).map fun body =>
      (wr.objectMeta.key, ⟨{ wr.objectMeta with size := wr.n }, body⟩)
  | _ => none

theorem committed_key {p : Str × Blob} (h : committed d temp wr a = some p) :
    p.1 = wr.objectMeta.key := by
  cases a with
  | stored b =>
    cases b with
    | true =>
      obtain ⟨body, -, rfl⟩ := map_eq_some_iff.mp h
      rfl
    | false => cases h
  | done | found | failed => cases h

def installed (d : DiskDir) (t : FileTier) (op : FileOp) (a : FileAnswer) : Option (Str × Blob) :=
  match op with
  | .commit temp _ => (t.writers.lookup temp).bind fun wr => committed d temp wr a
  | _ => none

section

variable (hinj : Function.Injective blobPath) (h : t.Ok)

include hinj h

theorem commit_frame {renames : Bool}
    (hcommit : commit blobPath d t temp wr renames = some ((e, u), a)) :
    Frame blobPath d.blobs e.blobs t u (committed d temp wr a) := by
  obtain hrefused | ⟨files, s, htrim, ⟨body, hbody, rfl, hstored⟩ | ⟨-, hfailed⟩⟩ :=
    commit_cases hinj h d temp wr renames
  · rw [hrefused] at hcommit
    cases hcommit
    exact .refl _ _
  · rw [hstored] at hcommit
    cases hcommit
    rw [committed, hbody]
    refine ⟨fun file hfile => ?_, fun key hkey m hm => ?_, fun p hp => ?_, fun p hp m hm => ?_⟩
    · rw [lookup_insert_ne (Ne.symm (hfile _ rfl))]
      exact htrim.2.others file fun _ hp => absurd hp (not_mem_none _)
    · have hne : key ≠ wr.objectMeta.key := Ne.symm (hkey _ rfl)
      have hold : m ∈ (t.setShard (t.shardOf wr.objectMeta.key) s).entry key := by
        rw [entry_setShard] at hm ⊢
        split at hm
        case isTrue hshard =>
          dsimp only [pushFront] at hm
          rw [lookup_insert_ne hne] at hm
          rw [if_pos hshard]
          exact hm
        case isFalse hshard =>
          rw [if_neg hshard]
          exact hm
      obtain ⟨hold, hsame⟩ := htrim.2.entries key (fun _ hp => absurd hp (not_mem_none _)) m hold
      refine ⟨hold, ?_⟩
      rw [lookup_insert_ne (hinj.ne hne)]
      exact hsame
    · rw [← some.inj hp]
      exact lookup_insert _
    · rw [← some.inj hp] at hm ⊢
      rw [entry_setShard, if_pos rfl, pushFront, lookup_insert] at hm
      rw [← some.inj hm]
  · rw [hfailed] at hcommit
    cases hcommit
    exact htrim.2

theorem get_frame (d : DiskDir) (key : Str) :
    Frame blobPath d.blobs (get blobPath d t key).1.1.blobs t (get blobPath d t key).1.2 none := by
  unfold get
  dsimp only
  split
  · exact .refl _ _
  case h_2 m hm =>
    have hmem : key ∈ (t.shards (t.shardOf key)).items :=
      lookup_isSome.mp (isSome_of_mem hm)
    have hmoved : Trimmed blobPath d.blobs d.blobs t
        (t.setShard (t.shardOf key) ((t.shards (t.shardOf key)).moveToFront key)) := by
      refine ⟨h.1.setShard ((h.1 _).moveToFront hmem), Frame.same rfl (fun k => ?_) rfl⟩
      rw [entry_setShard]
      split
      case isTrue hshard => rw [entry, shard, hshard]; rfl
      case isFalse => rfl
    split
    · exact (hmoved.removeLocked hinj key).2
    · exact hmoved.2

theorem resetShard_frame (d : DiskDir) (i : Nat) :
    Frame blobPath d.blobs (resetShard blobPath d t i).1.blobs t (resetShard blobPath d t i).2 none := by
  have hfold : ∀ (keys : List Str) (p : FinMap Str Blob × DiskRing),
      Trimmed blobPath d.blobs p.1 t (t.setShard i p.2) →
      Trimmed blobPath d.blobs
        (keys.foldl (fun p key => removeLocked blobPath p.1 p.2 key) p).1 t
        (t.setShard i (keys.foldl (fun p key => removeLocked blobPath p.1 p.2 key) p).2) := by
    intro keys
    induction keys with
    | nil => exact fun _ hp => hp
    | cons key keys ih => exact fun p hp => ih _ (hp.removeLocked hinj key)
  refine (hfold _ (d.blobs, t.shards i) ?_).2
  rw [setShard_self]
  exact ⟨h.1, .refl _ _⟩

theorem step_frame (hop : ∀ n, op ≠ .restart n) (hstep : step blobPath (d, t) op = some ((e, u), a)) :
    Frame blobPath d.blobs e.blobs t u (installed d t op a) := by
  cases op with
  | create temp m | write temp p | abort temp | flushBegin | flushWrite writes =>
    simp only [step] at hstep
    repeat' split at hstep
    all_goals
      cases hstep
      exact .same rfl (fun _ => rfl) rfl
  | commit temp renames =>
    simp only [step] at hstep
    split at hstep
    case h_1 hwr =>
      cases hstep
      exact .same rfl (fun _ => rfl) (by rw [installed, hwr]; rfl)
    case h_2 wr hwr =>
      have hframe := commit_frame (t := { t with writers := t.writers.erase temp }) hinj h hstep
      rw [installed, hwr]
      exact ⟨hframe.others, hframe.entries, hframe.fresh, hframe.keyed⟩
  | get key =>
    have hframe := get_frame hinj h d key
    simp only [step, some.injEq] at hstep
    rw [hstep] at hframe
    exact hframe
  | delete key =>
    have hself : Trimmed blobPath d.blobs d.blobs t (t.setShard (t.shardOf key) (t.shard key)) := by
      rw [shard, setShard_self]
      exact ⟨h.1, .refl _ _⟩
    have hframe := (hself.removeLocked hinj key).2
    cases hstep
    exact hframe
  | resetShard i =>
    have hframe := resetShard_frame hinj h d i
    simp only [step, some.injEq, Prod.mk.injEq] at hstep
    rw [hstep.1] at hframe
    exact hframe
  | flushShard =>
    simp only [step] at hstep
    split at hstep
    · cases hstep
      exact .same rfl (fun _ => rfl) rfl
    split at hstep
    · cases hstep
      refine .same rfl (fun key => (entry_setShard _ _ _ key).trans ?_) rfl
      split
      case isTrue hshard => rw [entry, shard, hshard]
      case isFalse => rfl
    · cases hstep
      exact .same rfl (fun _ => rfl) rfl
  | restart maxBytes => exact absurd rfl (hop maxBytes)

end

/-! ## Directories that serve a tier alike -/

/-- Both directories have the blob of every entry and the temporary file of every writer, with the
same bytes. -/
structure Serves (blobPath : Str → Str) (t : FileTier) (d d' : DiskDir) : Prop where
  blobs : ∀ key, ∀ m ∈ t.entry key, ∃ b, d.blobs.lookup (blobPath key) = some b ∧
    d'.blobs.lookup (blobPath key) = some b
  temps : ∀ temp ∈ t.writers, ∃ body, d.temps.lookup temp = some body ∧
    d'.temps.lookup temp = some body

theorem Serves.temps_eq (h : Serves blobPath t d d') (htemp : temp ∈ t.writers) :
    d.temps.lookup temp = d'.temps.lookup temp := by
  obtain ⟨body, hd, hd'⟩ := h.temps temp htemp
  rw [hd, hd']

theorem Serves.blobs_frame (h : Serves blobPath t d d') {new : Option (Str × Blob)}
    (hframe : Frame blobPath d.blobs files t u new) (hframe' : Frame blobPath d'.blobs files' t u new) :
    ∀ key, ∀ m ∈ u.entry key, ∃ b, files.lookup (blobPath key) = some b ∧
      files'.lookup (blobPath key) = some b := by
  intro key m hm
  by_cases hnew : ∃ p ∈ new, p.1 = key
  · obtain ⟨p, hp, rfl⟩ := hnew
    exact ⟨p.2, hframe.fresh p hp, hframe'.fresh p hp⟩
  have hother : ∀ p ∈ new, p.1 ≠ key := fun p hp heq => hnew ⟨p, hp, heq⟩
  obtain ⟨hm', hsame⟩ := hframe.entries key hother m hm
  obtain ⟨-, hsame'⟩ := hframe'.entries key hother m hm
  rw [hsame, hsame']
  exact h.blobs key m hm'

theorem commit_agrees (htemp : d.temps.lookup temp = d'.temps.lookup temp) {renames : Bool}
    (hcommit : commit blobPath d t temp wr renames = some ((e, u), a)) :
    u.writers = t.writers ∧ e.temps = d.temps.erase temp ∧
      ∃ e', commit blobPath d' t temp wr renames = some ((e', u), a) ∧
        e'.temps = d'.temps.erase temp := by
  unfold commit at hcommit ⊢
  dsimp only at hcommit ⊢
  split at hcommit
  case isTrue hcap =>
    cases hcommit
    rw [if_pos hcap]
    exact ⟨rfl, rfl, _, rfl, rfl⟩
  case isFalse hcap =>
    rw [if_neg hcap]
    have hring := @DiskRing.removeLocked_ring blobPath d.blobs d'.blobs
      (t.shards (t.shardOf wr.objectMeta.key)) wr.objectMeta.key
    generalize removeLocked blobPath d.blobs _ _ = p at hring hcommit
    generalize removeLocked blobPath d'.blobs _ _ = p' at hring ⊢
    obtain ⟨files, s⟩ := p
    obtain ⟨files', s'⟩ := p'
    obtain rfl : s = s' := hring
    cases hevict : makeRoom blobPath wr.n files s with
    | none =>
      rw [hevict] at hcommit
      cases hcommit
    | some q =>
      rw [hevict] at hcommit
      obtain ⟨files₂, hevict'⟩ := evict_ring hevict files'
      rw [makeRoom, hevict', ← htemp]
      cases hbody : d.temps.lookup temp with
      | none =>
        rw [hbody] at hcommit
        cases hcommit
        exact ⟨rfl, rfl, _, rfl, rfl⟩
      | some body =>
        rw [hbody] at hcommit
        cases renames <;>
        · cases hcommit
          exact ⟨rfl, rfl, _, rfl, rfl⟩

theorem resetShard_agrees (d d' : DiskDir) (t : FileTier) (i : Nat) :
    (resetShard blobPath d t i).2 = (resetShard blobPath d' t i).2 := by
  have hfold : ∀ (keys : List Str) (files files' : FinMap Str Blob) (s : DiskRing),
      (keys.foldl (fun p key => removeLocked blobPath p.1 p.2 key) (files, s)).2 =
      (keys.foldl (fun p key => removeLocked blobPath p.1 p.2 key) (files', s)).2 := by
    intro keys
    induction keys with
    | nil => exact fun _ _ _ => rfl
    | cons key keys ih =>
      intro files files' s
      rw [List.foldl_cons, List.foldl_cons]
      have hring := @DiskRing.removeLocked_ring blobPath files files' s key
      generalize removeLocked blobPath files s key = p at hring ⊢
      generalize removeLocked blobPath files' s key = p' at hring ⊢
      obtain ⟨files₁, s₁⟩ := p
      obtain ⟨files₂, s₂⟩ := p'
      obtain rfl : s₁ = s₂ := hring
      exact ih files₁ files₂ s₁
  exact congrArg (t.setShard i) (hfold _ _ _ _)

theorem get_agrees {key : Str}
    (hblob : ∀ m ∈ t.entry key, d.blobs.lookup (blobPath key) = d'.blobs.lookup (blobPath key)) :
    (get blobPath d t key).1.2 = (get blobPath d' t key).1.2 ∧
      (get blobPath d t key).2 = (get blobPath d' t key).2 := by
  rw [get, get]
  cases hm : (t.shards (t.shardOf key)).items.lookup key with
  | none => exact ⟨rfl, rfl⟩
  | some m =>
    rw [hblob m hm]
    cases d'.blobs.lookup (blobPath key) with
    | none =>
      exact ⟨congrArg (t.setShard _) (removeLocked_ring d.blobs d'.blobs _ key), rfl⟩
    | some b => exact ⟨rfl, rfl⟩

theorem get_writers (d : DiskDir) (t : FileTier) (key : Str) :
    (get blobPath d t key).1.2.writers = t.writers ∧ (get blobPath d t key).1.1.temps = d.temps := by
  rw [get]
  split
  · exact ⟨rfl, rfl⟩
  · split <;> exact ⟨rfl, rfl⟩

theorem Serves.temps_erase (h : Serves blobPath t d d') (temp : Nat) :
    ∀ k ∈ t.writers.erase temp, ∃ body, (d.temps.erase temp).lookup k = some body ∧
      (d'.temps.erase temp).lookup k = some body := by
  intro k hk
  obtain ⟨hne, hk⟩ := mem_erase.mp hk
  rw [lookup_erase_ne hne, lookup_erase_ne hne]
  exact h.temps k hk

theorem Serves.temps_insert (h : Serves blobPath t d d') (temp : Nat) (wr : DiskWriter) (body : Str) :
    ∀ k ∈ t.writers.insert temp wr, ∃ body', (d.temps.insert temp body).lookup k = some body' ∧
      (d'.temps.insert temp body).lookup k = some body' := by
  intro k hk
  rw [FinMap.lookup_insert_ite, FinMap.lookup_insert_ite]
  split
  · exact ⟨body, rfl, rfl⟩
  case isFalse hne => exact h.temps k (((mem_insert _).mp hk).resolve_left hne)

theorem step_answers (h : Serves blobPath t d d') (hop : ∀ n, op ≠ .restart n)
    (hname : ∀ temp m, op = .create temp m → (temp ∈ d.temps ↔ temp ∈ d'.temps))
    (hstep : step blobPath (d, t) op = some ((e, u), a)) :
    ∃ e', step blobPath (d', t) op = some ((e', u), a) ∧
      ∀ temp ∈ u.writers, ∃ body, e.temps.lookup temp = some body ∧
        e'.temps.lookup temp = some body := by
  cases op with
  | create temp m =>
    have hname := hname temp m rfl
    simp only [step] at hstep ⊢
    split at hstep
    case isTrue htaken =>
      cases hstep
      rw [if_pos (hname.mp htaken)]
      exact ⟨_, rfl, h.temps⟩
    case isFalse hfree =>
      cases hstep
      rw [if_neg (mt hname.mpr hfree)]
      exact ⟨_, rfl, h.temps_insert temp _ _⟩
  | write temp p =>
    simp only [step] at hstep ⊢
    cases hwr : t.writers.lookup temp with
    | none =>
      rw [hwr] at hstep
      cases hstep
      exact ⟨_, rfl, h.temps⟩
    | some wr =>
      obtain ⟨body, hd, hd'⟩ := h.temps temp (lookup_isSome.mp (isSome_of_mem hwr))
      rw [hwr, hd] at hstep
      cases hstep
      rw [hd']
      exact ⟨_, rfl, h.temps_insert temp _ _⟩
  | commit temp renames =>
    simp only [step] at hstep ⊢
    cases hwr : t.writers.lookup temp with
    | none =>
      rw [hwr] at hstep
      cases hstep
      exact ⟨_, rfl, h.temps⟩
    | some wr =>
      rw [hwr] at hstep
      have htemp := h.temps_eq (lookup_isSome.mp (isSome_of_mem hwr))
      obtain ⟨hwriters, htemps, e', hcommit, htemps'⟩ := commit_agrees htemp hstep
      refine ⟨e', hcommit, ?_⟩
      rw [hwriters, htemps, htemps']
      exact h.temps_erase temp
  | abort temp =>
    simp only [step] at hstep ⊢
    split at hstep
    case isTrue hmem =>
      cases hstep
      rw [if_pos hmem]
      exact ⟨_, rfl, h.temps_erase temp⟩
    case isFalse hmem =>
      cases hstep
      rw [if_neg hmem]
      exact ⟨_, rfl, h.temps⟩
  | get key =>
    have hblob : ∀ m ∈ t.entry key,
        d.blobs.lookup (blobPath key) = d'.blobs.lookup (blobPath key) := by
      intro m hm
      obtain ⟨b, hd, hd'⟩ := h.blobs key m hm
      rw [hd, hd']
    obtain ⟨htier, hanswer⟩ := get_agrees hblob
    obtain ⟨hwriters, htemps⟩ := @get_writers blobPath d t key
    obtain ⟨-, htemps'⟩ := @get_writers blobPath d' t key
    simp only [step, some.injEq] at hstep ⊢
    rw [hstep] at htier hanswer hwriters htemps
    refine ⟨_, Prod.ext (Prod.ext rfl htier.symm) hanswer.symm, ?_⟩
    rw [hwriters, htemps, htemps']
    exact h.temps
  | delete key =>
    have hring := @DiskRing.removeLocked_ring blobPath d.blobs d'.blobs (t.shard key) key
    simp only [step, delete, hring] at hstep ⊢
    cases hstep
    exact ⟨_, rfl, h.temps⟩
  | resetShard i =>
    have hring := @resetShard_agrees blobPath d d' t i
    simp only [step, some.injEq, Prod.mk.injEq] at hstep ⊢
    obtain ⟨hreset, rfl⟩ := hstep
    rw [hreset] at hring
    refine ⟨_, ⟨Prod.ext rfl hring.symm, rfl⟩, ?_⟩
    cases hreset
    exact h.temps
  | flushBegin =>
    cases hstep
    exact ⟨_, rfl, h.temps⟩
  | flushShard =>
    simp only [step] at hstep ⊢
    split at hstep
    case h_1 =>
      cases hstep
      exact ⟨_, rfl, h.temps⟩
    case h_2 i l _ =>
      split at hstep
      case isTrue hi =>
        cases hstep
        exact ⟨_, by rw [if_pos hi], h.temps⟩
      case isFalse hi =>
        cases hstep
        exact ⟨_, by rw [if_neg hi], h.temps⟩
  | flushWrite writes =>
    simp only [step] at hstep ⊢
    split at hstep
    case h_1 =>
      cases hstep
      exact ⟨_, rfl, h.temps⟩
    case h_2 i l _ =>
      split at hstep
      case isTrue hi =>
        cases hstep
        exact ⟨_, by rw [if_pos hi], h.temps⟩
      case isFalse hi =>
        rw [if_neg hi]
        cases writes <;>
        · cases hstep
          exact ⟨_, rfl, h.temps⟩
  | restart maxBytes => exact absurd rfl (hop maxBytes)

theorem step_agrees (hinj : Function.Injective blobPath) (hok : t.Ok) (h : Serves blobPath t d d')
    (hop : ∀ n, op ≠ .restart n)
    (hname : ∀ temp m, op = .create temp m → (temp ∈ d.temps ↔ temp ∈ d'.temps))
    (hstep : step blobPath (d, t) op = some ((e, u), a)) :
    ∃ e', step blobPath (d', t) op = some ((e', u), a) ∧ Serves blobPath u e e' := by
  obtain ⟨e', hstep', htemps⟩ := step_answers h hop hname hstep
  refine ⟨e', hstep', ?_, htemps⟩
  have hnew : installed d t op a = installed d' t op a := by
    cases op with
    | commit temp renames =>
      simp only [installed]
      cases hwr : t.writers.lookup temp with
      | none => rfl
      | some wr =>
        have htemp := h.temps_eq (lookup_isSome.mp (isSome_of_mem hwr))
        cases a with
        | stored b => cases b <;> simp only [committed, htemp]
        | done | found | failed => rfl
    | _ => rfl
  have hframe' := step_frame hinj hok hop hstep'
  rw [← hnew] at hframe'
  exact h.blobs_frame (step_frame hinj hok hop hstep) hframe'

def Tidy (d : DiskDir) (t : FileTier) : Prop := ∀ temp, temp ∈ d.temps ↔ temp ∈ t.writers

theorem Tidy.insert (h : Tidy d t) (temp : Nat) (wr : DiskWriter) (body : Str) :
    ∀ k, k ∈ d.temps.insert temp body ↔ k ∈ t.writers.insert temp wr := by
  intro k
  rw [mem_insert, mem_insert, h k]

theorem Tidy.erase (h : Tidy d t) (temp : Nat) :
    ∀ k, k ∈ d.temps.erase temp ↔ k ∈ t.writers.erase temp := by
  intro k
  rw [mem_erase, mem_erase, h k]

theorem step_tidy (h : Tidy d t) (hop : ∀ n, op ≠ .restart n)
    (hstep : step blobPath (d, t) op = some ((e, u), a)) : Tidy e u := by
  cases op with
  | create temp m =>
    simp only [step] at hstep
    split at hstep
    · cases hstep
      exact h
    · cases hstep
      exact h.insert temp _ _
  | write temp p =>
    simp only [step] at hstep
    split at hstep
    · cases hstep
      exact h
    case h_2 wr hwr =>
      obtain ⟨body, hbody⟩ := isSome_iff_exists.mp (lookup_isSome.mpr
        ((h temp).mpr (lookup_isSome.mp (isSome_of_mem hwr))))
      rw [hbody] at hstep
      cases hstep
      exact h.insert temp _ _
  | commit temp renames =>
    simp only [step] at hstep
    split at hstep
    · cases hstep
      exact h
    · obtain ⟨hwriters, htemps, -⟩ := commit_agrees rfl hstep
      rw [Tidy, hwriters, htemps]
      exact h.erase temp
  | abort temp =>
    simp only [step] at hstep
    split at hstep
    · cases hstep
      exact h.erase temp
    · cases hstep
      exact h
  | get key =>
    obtain ⟨hwriters, htemps⟩ := @get_writers blobPath d t key
    simp only [step, some.injEq] at hstep
    rw [hstep] at hwriters htemps
    rw [Tidy, hwriters, htemps]
    exact h
  | delete key | resetShard i | flushBegin | flushShard | flushWrite writes =>
    simp only [step] at hstep
    repeat' split at hstep
    all_goals
      cases hstep
      exact h
  | restart maxBytes => exact absurd rfl (hop maxBytes)

end FileTier

end Cadish
