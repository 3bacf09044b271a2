import Cadish.Cache.Store
import Cadish.Server.Bans

/-!
# What the freshness index vouches for

A response is written to a tier, committed, its key deleted from the sibling tier, and then its
windows are recorded in the index; the steps of many responses interleave. **A commit that discards
its object returns no error**: the index then vouches for an older copy
(`not_vouches_after_discard`). Without such a discard, and with responses for one key committed one
after the other in one store, every hit is the object whose windows are recorded (`run_vouches`).
-/

namespace Cadish

open Lossy Transition Option AList Freshness

/-- How long a stored response may be used: `sd.TTL`, `sd.Grace`, `sd.MaxStale`. -/
structure Windows where
  ttl : Duration
  grace : Duration := 0
  maxStale : Duration := 0
deriving DecidableEq

inductive Phase where
  | writing (failed : Bool)
  | committed (stored : Bool)
  | settled
deriving DecidableEq, Repr

def Phase.isWriting : Phase → Bool
  | .writing _ => true
  | _ => false

/-- A response on its way into a store. -/
structure Fetching (n : Nat) where
  store : Fin n
  writer : TierWriter
  /-- its windows; none for a compressed copy of a stored object, which has no entry -/
  windows : Option Windows
  body : Str
  phase : Phase

def Fetching.key {n : Nat} (f : Fetching n) : Key := f.writer.objectMeta.key

def Fetching.object {n : Nat} (f : Fetching n) : Object := f.writer.objectMeta.with f.body

/-- A response whose windows were recorded. -/
structure Record where
  object : Object
  windows : Windows
  storedAt : Instant

def Record.entry (r : Record) : FreshEntry :=
  .object r.storedAt (r.storedAt.add r.windows.ttl) (r.storedAt.add (r.windows.ttl + r.windows.grace))
    (if 0 < r.windows.maxStale then
      some (r.storedAt.add (r.windows.ttl + r.windows.grace + r.windows.maxStale))
    else none)

structure Server (n : Nat) where
  stores : Fin n → Store
  fresh : Freshness
  fetches : FinMap Nat (Fetching n) := ∅
  recorded : FinMap Key Record := ∅

inductive ServerStep (n : Nat) where
  | writer (id : Nat) (store : Fin n) (m : ObjectMeta) (windows : Option Windows)
  | write (id : Nat) (p : Str) (ok : Bool)
  | finish (id : Nat) (complete : Bool) (io : FileOutcome)
  | dedup (id : Nat)
  | mark (now : Instant) (id : Nat)
  | getTier (store : Fin n) (key : Key)
  | index (now : Instant) (op : FreshOp)
  | vanish (store : Fin n) (file : Str)
  | flush (store : Fin n)

namespace Server

variable {n : Nat} (blobPath : Str → Str)

section

variable {key : Key} {i : Fin n} {f : Fetching n} {id : Nat}

variable (s : Server n)

def setStore (i : Fin n) (st : Store) : Server n :=
  { s with stores := Function.update s.stores i st }

def setFetch (id : Nat) (f : Fetching n) : Server n :=
  { s with fetches := s.fetches.insert id f }

def endFetch (id : Nat) : Server n := { s with fetches := s.fetches.erase id }

/-- `NewHandler`: the stores are opened, the index is empty. -/
def start (cfg : Fin n → RouterConfig) (blobs : Fin n → FinMap Str Blob)
    (index : Fin n → Option (List ObjectMeta)) : Server n :=
  { stores := fun i => .new blobPath (cfg i) (blobs i) (index i), fresh := .new }

/-- `mirror`: the first failed write is remembered, and no more is written. -/
def write (id : Nat) (f : Fetching n) (p : Str) (ok : Bool) : Server n :=
  match f.phase with
  | .writing false =>
    if ok then
      let (st, w) := (s.stores f.store).write f.writer p
      (s.setStore f.store st).setFetch id { f with writer := w, body := f.body ++ p }
    else s.setFetch id { f with body := f.body ++ p, phase := .writing true }
  | .writing true => s.setFetch id { f with body := f.body ++ p }
  | _ => s

/-- `cacheTee.finish`, up to the commit of the tier. -/
def finish (id : Nat) (f : Fetching n) (complete : Bool) (io : FileOutcome) :
    Server n :=
  match f.phase with
  | .writing failed =>
    if failed || !complete then
      (s.setStore f.store ((s.stores f.store).abort f.writer)).endFetch id
    else
      match (s.stores f.store).commitTier blobPath f.writer io with
      | (st, .error _) => (s.setStore f.store st).endFetch id
      | (st, .ok stored) => (s.setStore f.store st).setFetch id { f with phase := .committed stored }
  | _ => s

def dedup (id : Nat) (f : Fetching n) : Server n :=
  match f.phase with
  | .committed stored =>
    let st := s.stores f.store
    let st := if stored then st.delete blobPath f.writer.tier.sibling f.key else st
    (s.setStore f.store st).setFetch id { f with phase := .settled }
  | _ => s

/-- `fresh.store` after a `Commit` without an error. -/
def mark (now : Instant) (id : Nat) (f : Fetching n) : Server n :=
  match f.phase with
  | .settled =>
    match f.windows with
    | none => s.endFetch id
    | some w =>
      { s.endFetch id with
        fresh := s.fresh.store now f.key w.ttl w.grace w.maxStale
        recorded := s.recorded.insert f.key ⟨f.object, w, now⟩ }
  | _ => s

def step : ServerStep n → Server n
  | .writer id i m windows =>
    match s.fetches.lookup id with
    | none => s.setFetch id ⟨i, (s.stores i).writer m, windows, [], .writing false⟩
    | some _ => s
  | .write id p ok =>
    match s.fetches.lookup id with
    | none => s
    | some f => s.write id f p ok
  | .finish id complete io =>
    match s.fetches.lookup id with
    | none => s
    | some f => s.finish blobPath id f complete io
  | .dedup id =>
    match s.fetches.lookup id with
    | none => s
    | some f => s.dedup blobPath id f
  | .mark now id =>
    match s.fetches.lookup id with
    | none => s
    | some f => s.mark now id f
  | .getTier i key => s.setStore i ((s.stores i).touch blobPath key)
  | .index now op =>
    match op with
    -- the index is given objects by `mark` only
    | .store _ _ _ _ => s
    | op => { s with fresh := op.apply s.fresh now }
  | .vanish i file =>
    s.setStore i { s.stores i with disk := (s.stores i).disk.step blobPath (.vanish file) }
  | .flush i =>
    let disk := (s.stores i).disk
    s.setStore i { s.stores i with disk := run (DiskTier.step blobPath) disk disk.flushIfDirty }

/-! ## The property and its condition -/

def contents (i : Fin n) (tier : Tier) (key : Key) : Option Object :=
  (s.stores i).contents blobPath tier key

/-- **The index vouches for what the store has.** If the key is fresh or stale and a store hits,
then the object is that of the response whose windows are the entry of the key. -/
def Vouches (key : Key) : Prop :=
  ∀ now i x tier, (s.fresh.classify now key).2.1 ≠ .miss →
    (s.stores i).getTier blobPath key = some (x, tier) →
    ∃ r ∈ s.recorded.lookup key, s.fresh.entries.lookup key = some r.entry ∧ x = r.object

/-- No response for the key is between its commit and its entry in the index. -/
def Quiet (key : Key) : Prop :=
  ∀ e ∈ s.fetches.entries, e.2.key = key → e.2.phase.isWriting = true

def Lacks (i : Fin n) (key : Key) : Prop :=
  s.contents blobPath i .ram key = none ∧ s.contents blobPath i .disk key = none

/-- A response may commit: no other one for its key is between its commit and its entry in the
index, no other store has a copy of the key, its own has none either unless the tier will take the
object, and a compressed copy has a key that the index has no object for. -/
def MayCommit (f : Fetching n) : Prop :=
  s.Quiet f.key ∧ (∀ i, i ≠ f.store → s.Lacks blobPath i f.key) ∧
    ((s.stores f.store).Takes f.writer ∨ s.Lacks blobPath f.store f.key) ∧
    (f.windows = none → ∀ e ∈ s.fresh.entries.lookup f.key, e.isObject = false)

/-- A step may be taken: if it commits a response, that may commit. -/
def StepOk : ServerStep n → Prop
  | .finish id complete _ =>
    complete = true → ∀ f ∈ s.fetches.lookup id, f.phase = .writing false → s.MayCommit blobPath f
  | _ => True

instance (s : Server n) (key : Key) : Decidable (s.Quiet key) :=
  inferInstanceAs (Decidable (∀ e ∈ s.fetches.entries, _))

instance (s : Server n) (i : Fin n) (key : Key) : Decidable (s.Lacks blobPath i key) :=
  inferInstanceAs (Decidable (_ ∧ _))

instance (s : Server n) (f : Fetching n) : Decidable (s.MayCommit blobPath f) :=
  inferInstanceAs (Decidable (_ ∧ _ ∧ _ ∧ _))

instance (s : Server n) (a : ServerStep n) : Decidable (s.StepOk blobPath a) :=
  match a with
  | .finish _ _ _ => inferInstanceAs (Decidable (_ → ∀ f ∈ _, _ → _))
  | .writer _ _ _ _ | .write _ _ _ | .dedup _ | .mark _ _ | .getTier _ _ | .index _ _ |
    .vanish _ _ | .flush _ => inferInstanceAs (Decidable True)

/-! ## The invariant -/

/-- The response is the only one that bears on its key: no other store has a copy, and if it will
have no entry in the index then there is none. -/
structure Alone (s : Server n) (f : Fetching n) : Prop where
  others : ∀ i, i ≠ f.store → ∀ tier, s.contents blobPath i tier f.key = none
  unvouched : f.windows = none → ∀ e ∈ s.fresh.entries.lookup f.key, e.isObject = false

def Progress (f : Fetching n) : Prop :=
  match f.phase with
  | .writing false => f.writer.Carries f.body
  | .writing true => True
  | .committed true =>
    s.Alone blobPath f ∧ Only (s.contents blobPath f.store f.writer.tier) f.key f.object
  | .committed false =>
    s.Alone blobPath f ∧ ∀ tier, s.contents blobPath f.store tier f.key = none
  | .settled =>
    s.Alone blobPath f ∧ ∀ tier, Only (s.contents blobPath f.store tier) f.key f.object

structure Inv (s : Server n) : Prop where
  progress : ∀ id, ∀ f ∈ s.fetches.lookup id, s.Progress blobPath f
  /-- one response for a key at a time is between its commit and its entry in the index -/
  alone : ∀ id id' f f', f ∈ s.fetches.lookup id → f' ∈ s.fetches.lookup id' →
    f.phase.isWriting = false → f'.phase.isWriting = false → f.key = f'.key → id = id'
  /-- otherwise the copies of the key are the response that the index has windows of -/
  vouched : ∀ key, s.Quiet key → ∀ e ∈ s.fresh.entries.lookup key, e.isObject = true →
    ∃ r ∈ s.recorded.lookup key, e = r.entry ∧
      ∀ i tier, Only (s.contents blobPath i tier) key r.object

/-- Under this key nothing is new, in the stores or in the index. -/
structure Lessens (s s' : Server n) (key : Key) : Prop where
  contents : ∀ i tier, ∀ x ∈ s'.contents blobPath i tier key, x ∈ s.contents blobPath i tier key
  entries : ∀ e ∈ s'.fresh.entries.lookup key, e.isObject = true → e ∈ s.fresh.entries.lookup key

variable {blobPath} {s s' : Server n}

theorem quiet_iff :
    s.Quiet key ↔ ∀ id, ∀ f ∈ s.fetches.lookup id, f.key = key → f.phase.isWriting = true := by
  constructor
  · intro h id f hf
    exact h ⟨id, f⟩ (mem_lookup_iff.mp hf)
  · intro h e he
    exact h e.1 e.2 (mem_lookup_iff.mpr he)

theorem Lessens.refl (s : Server n) (key : Key) : Lessens blobPath s s key :=
  ⟨fun _ _ _ h => h, fun _ h _ => h⟩

theorem Lessens.trans {s'' : Server n} (h : Lessens blobPath s s' key)
    (h' : Lessens blobPath s' s'' key) : Lessens blobPath s s'' key :=
  ⟨fun i tier x hx => h.contents i tier x (h'.contents i tier x hx),
    fun e he hobj => h.entries e (h'.entries e he hobj) hobj⟩

theorem setFetch_lessens (s : Server n) (id : Nat) (f : Fetching n) (key : Key) :
    Lessens blobPath s (s.setFetch id f) key :=
  ⟨fun _ _ _ h => h, fun _ h _ => h⟩

theorem endFetch_lessens (s : Server n) (id : Nat) (key : Key) :
    Lessens blobPath s (s.endFetch id) key :=
  ⟨fun _ _ _ h => h, fun _ h _ => h⟩

theorem Lessens.eq_none (h : Lessens blobPath s s' key) {tier : Tier}
    (hnone : s.contents blobPath i tier key = none) : s'.contents blobPath i tier key = none := by
  refine eq_none_iff_forall_not_mem.mpr fun x hx => ?_
  have hold := h.contents i tier x hx
  rw [hnone] at hold
  exact not_mem_none x hold

theorem Lessens.alone (h : Lessens blobPath s s' f.key) (hf : s.Alone blobPath f) :
    s'.Alone blobPath f := by
  refine ⟨fun i hi tier => h.eq_none (hf.others i hi tier), fun hw e he => ?_⟩
  by_contra hobj
  rw [Bool.not_eq_false] at hobj
  rw [hf.unvouched hw e (h.entries e he hobj)] at hobj
  cases hobj

theorem Alone.advance (h : s.Alone blobPath f) (phase : Phase) :
    s.Alone blobPath { f with phase := phase } :=
  ⟨h.others, h.unvouched⟩

theorem Lessens.only (h : Lessens blobPath s s' key) {tier : Tier} {x : Object}
    (honly : Only (s.contents blobPath i tier) key x) : Only (s'.contents blobPath i tier) key x :=
  fun y hy => honly y (h.contents i tier y hy)

theorem Lessens.progress (h : Lessens blobPath s s' f.key) (hf : s.Progress blobPath f) :
    s'.Progress blobPath f := by
  unfold Progress at hf ⊢
  split at hf
  · exact hf
  · trivial
  · exact ⟨h.alone hf.1, h.only hf.2⟩
  · exact ⟨h.alone hf.1, fun tier => h.eq_none (hf.2 tier)⟩
  · exact ⟨h.alone hf.1, fun tier => h.only (hf.2 tier)⟩

theorem Progress.of_writing (h : s.Progress blobPath f) (hw : f.phase.isWriting = true) :
    s'.Progress blobPath f := by
  unfold Progress at h ⊢
  split at h
  · exact h
  · trivial
  case h_3 hp | h_4 hp | h_5 hp =>
    rw [hp] at hw
    cases hw

section

variable (h : s.Inv blobPath) (hless : ∀ key, Lessens blobPath s s' key)
  (hrec : s'.recorded = s.recorded)

include h hless hrec

theorem Inv.lessen
    (hnew : ∀ id, ∀ f ∈ s'.fetches.lookup id, f ∈ s.fetches.lookup id ∨ (s'.Progress blobPath f ∧ (f.phase.isWriting = false → ∃ f₀ ∈ s.fetches.lookup id, f₀.key = f.key ∧ f₀.phase.isWriting = false)))
    (hkeep : ∀ id, ∀ f ∈ s.fetches.lookup id, f.phase.isWriting = false → ∃ f' ∈ s'.fetches.lookup id, f'.key = f.key ∧ f'.phase.isWriting = false) :
    s'.Inv blobPath := by
  -- a response that is past its commit was so before
  have hold : ∀ id, ∀ f ∈ s'.fetches.lookup id, f.phase.isWriting = false →
      ∃ f₀ ∈ s.fetches.lookup id, f₀.key = f.key ∧ f₀.phase.isWriting = false := by
    intro id f hf hw
    obtain hf₀ | ⟨-, hpast⟩ := hnew id f hf
    · exact ⟨f, hf₀, rfl, hw⟩
    · exact hpast hw
  refine ⟨fun id f hf => ?_, fun id id' f f' hf hf' hw hw' hkey => ?_, fun key hquiet e he hobj => ?_⟩
  · obtain hf₀ | ⟨hprog, -⟩ := hnew id f hf
    · exact (hless f.key).progress (h.progress id f hf₀)
    · exact hprog
  · obtain ⟨f₀, hf₀, hkey₀, hw₀⟩ := hold id f hf hw
    obtain ⟨f₁, hf₁, hkey₁, hw₁⟩ := hold id' f' hf' hw'
    exact h.alone id id' f₀ f₁ hf₀ hf₁ hw₀ hw₁ (by rw [hkey₀, hkey₁, hkey])
  · have hquiet₀ : s.Quiet key := quiet_iff.mpr fun id f hf hkey => by
      by_contra hw
      obtain ⟨f', hf', hkey', hw'⟩ := hkeep id f hf (Bool.not_eq_true _ ▸ hw)
      rw [quiet_iff.mp hquiet id f' hf' (hkey'.trans hkey)] at hw'
      cases hw'
    obtain ⟨r, hr, hentry, honly⟩ := h.vouched key hquiet₀ e ((hless key).entries e he hobj) hobj
    exact ⟨r, hrec ▸ hr, hentry, fun i tier => (hless key).only (honly i tier)⟩

theorem Inv.lessen_same (hfetches : s'.fetches = s.fetches) : s'.Inv blobPath :=
  h.lessen hless hrec (fun _ _ hf => .inl (hfetches ▸ hf))
    fun _ f hf hw => ⟨f, hfetches ▸ hf, rfl, hw⟩

end

/-! ## Steps of a response -/

theorem mem_setFetch {id' : Nat} {f' : Fetching n} (h : f' ∈ (s.setFetch id f).fetches.lookup id') :
    (id' = id ∧ f' = f) ∨ (id' ≠ id ∧ f' ∈ s.fetches.lookup id') := by
  rw [setFetch, FinMap.lookup_insert_ite] at h
  split at h
  case isTrue hid => exact .inl ⟨hid, (mem_some_iff.mp h).symm⟩
  case isFalse hid => exact .inr ⟨hid, h⟩

theorem mem_endFetch {id' : Nat} {f' : Fetching n} (h : f' ∈ (s.endFetch id).fetches.lookup id') :
    id' ≠ id ∧ f' ∈ s.fetches.lookup id' := by
  rw [endFetch, FinMap.lookup_erase_ite] at h
  split at h
  · cases h
  case isFalse hid => exact ⟨hid, h⟩

theorem contents_setStore (s : Server n) (i j : Fin n) (st : Store) (tier : Tier) :
    (s.setStore i st).contents blobPath j tier =
      if j = i then st.contents blobPath tier else s.contents blobPath j tier := by
  funext key
  rw [contents, setStore]
  simp only [Function.update_apply]
  split <;> rfl

theorem setStore_lessens_at (s : Server n) {st : Store}
    (h : ∀ tier, ∀ x ∈ st.contents blobPath tier key, x ∈ (s.stores i).contents blobPath tier key) :
    Lessens blobPath s (s.setStore i st) key := by
  refine ⟨fun j tier x hx => ?_, fun e he _ => he⟩
  rw [contents_setStore] at hx
  split at hx
  case isTrue hj => exact hj ▸ h tier x hx
  case isFalse => exact hx

theorem setStore_lessens (s : Server n) {st : Store}
    (h : ∀ tier, Forgets ((s.stores i).contents blobPath tier) (st.contents blobPath tier)) (key : Key) :
    Lessens blobPath s (s.setStore i st) key :=
  s.setStore_lessens_at fun tier x hx => h tier key x hx

theorem Inv.advance (h : s.Inv blobPath) {g : Fetching n} (hf : s.fetches.lookup id = some f)
    (hless : ∀ key, Lessens blobPath s s' key) (hrec : s'.recorded = s.recorded)
    (hfetches : s'.fetches = s.fetches) (hkey : g.key = f.key)
    (hphase : g.phase.isWriting = f.phase.isWriting) (hprog : s'.Progress blobPath g) :
    (s'.setFetch id g).Inv blobPath := by
  refine h.lessen (fun key => (hless key).trans (s'.setFetch_lessens id g key)) hrec
    (fun id' f' hf' => ?_) fun id' f' hf' hw => ?_
  · obtain ⟨rfl, rfl⟩ | ⟨-, hold⟩ := mem_setFetch hf'
    · exact .inr ⟨(s'.setFetch_lessens _ _ _).progress hprog, fun hw => ⟨f, hf, hkey.symm, hphase ▸ hw⟩⟩
    · exact .inl (hfetches ▸ hold)
  · by_cases hid : id' = id
    · subst hid
      obtain rfl : f = f' := some.inj (hf.symm.trans hf')
      exact ⟨g, lookup_insert _, hkey, hphase.trans hw⟩
    · refine ⟨f', (lookup_insert_ne hid).trans ?_, rfl, hw⟩
      exact hfetches ▸ hf'

theorem Inv.leave (h : s.Inv blobPath) (hf : s.fetches.lookup id = some f)
    (hw : f.phase.isWriting = true) (hless : ∀ key, Lessens blobPath s s' key)
    (hrec : s'.recorded = s.recorded) (hfetches : s'.fetches = s.fetches) :
    (s'.endFetch id).Inv blobPath := by
  refine h.lessen (fun key => (hless key).trans (s'.endFetch_lessens id key)) hrec
    (fun id' f' hf' => .inl (hfetches ▸ (mem_endFetch hf').2)) fun id' f' hf' hw' => ?_
  have hid : id' ≠ id := by
    rintro rfl
    obtain rfl : f = f' := some.inj (hf.symm.trans hf')
    rw [hw] at hw'
    cases hw'
  refine ⟨f', (lookup_erase_ne hid).trans ?_, rfl, hw'⟩
  exact hfetches ▸ hf'

theorem Inv.write (h : s.Inv blobPath) (hf : s.fetches.lookup id = some f) (p : Str) (ok : Bool) :
    (s.write id f p ok).Inv blobPath := by
  rw [Server.write]
  split
  case h_1 hphase =>
    have hcarries : f.writer.Carries f.body := by
      have hprog := h.progress id f hf
      rwa [Progress, hphase] at hprog
    split
    case isTrue =>
      have hless (key : Key) : Lessens blobPath s
          (s.setStore f.store ((s.stores f.store).write f.writer p).1) key :=
        s.setStore_lessens (fun tier => by rw [Store.contents_write]; exact .refl _) key
      refine h.advance hf hless rfl rfl ?_ rfl ?_
      · exact congrArg ObjectMeta.key ((s.stores f.store).write_objectMeta f.writer p)
      · rw [hphase]
        exact (s.stores f.store).write_carries hcarries p
    case isFalse =>
      refine h.advance hf (Lessens.refl s) rfl rfl rfl ?_ trivial
      rw [hphase]
      rfl
  case h_2 hphase =>
    refine h.advance hf (Lessens.refl s) rfl rfl rfl rfl ?_
    rw [hphase]
    trivial
  case h_3 => exact h

theorem Inv.pass (h : s.Inv blobPath) {g : Fetching n} (hf : s.fetches.lookup id = some f)
    (hquiet : s.Quiet f.key) (hless : ∀ key, key ≠ f.key → Lessens blobPath s s' key)
    (hrec : s'.recorded = s.recorded) (hfetches : s'.fetches = s.fetches) (hkey : g.key = f.key)
    (hpast : g.phase.isWriting = false) (hprog : s'.Progress blobPath g) :
    (s'.setFetch id g).Inv blobPath := by
  have hless' (key : Key) (hne : key ≠ f.key) : Lessens blobPath s (s'.setFetch id g) key :=
    (hless key hne).trans (s'.setFetch_lessens id g key)
  -- the other responses for the key are still being written
  have hwriting (id' : Nat) (f' : Fetching n) (hf' : f' ∈ s'.fetches.lookup id')
      (hkey' : f'.key = f.key) : f'.phase.isWriting = true :=
    quiet_iff.mp hquiet id' f' (hfetches ▸ hf') hkey'
  have hnot (id' : Nat) (f' : Fetching n) (hf' : f' ∈ s'.fetches.lookup id')
      (hw' : f'.phase.isWriting = false) : f'.key ≠ f.key := fun hkey' => by
    rw [hwriting id' f' hf' hkey'] at hw'
    cases hw'
  refine ⟨fun id' f' hf' => ?_, fun id₁ id₂ f₁ f₂ hf₁ hf₂ hw₁ hw₂ hkeys => ?_,
    fun key hquiet' e he hobj => ?_⟩
  · obtain ⟨rfl, rfl⟩ | ⟨-, hold⟩ := mem_setFetch hf'
    · exact (s'.setFetch_lessens _ _ _).progress hprog
    · have hprog' := h.progress id' f' (hfetches ▸ hold)
      by_cases hkey' : f'.key = f.key
      · exact hprog'.of_writing (hwriting id' f' hold hkey')
      · exact (hless' f'.key hkey').progress hprog'
  · obtain ⟨rfl, rfl⟩ | ⟨-, hold₁⟩ := mem_setFetch hf₁
    · obtain ⟨rfl, -⟩ | ⟨-, hold₂⟩ := mem_setFetch hf₂
      · rfl
      · exact absurd (hkeys.symm.trans hkey) (hnot id₂ f₂ hold₂ hw₂)
    · obtain ⟨rfl, rfl⟩ | ⟨-, hold₂⟩ := mem_setFetch hf₂
      · exact absurd (hkeys.trans hkey) (hnot id₁ f₁ hold₁ hw₁)
      · exact h.alone id₁ id₂ f₁ f₂ (hfetches ▸ hold₁) (hfetches ▸ hold₂) hw₁ hw₂ hkeys
  · have hne : key ≠ f.key := by
      rintro rfl
      rw [quiet_iff.mp hquiet' id g (lookup_insert _) hkey] at hpast
      cases hpast
    have hquiet₀ : s.Quiet key := quiet_iff.mpr fun id' f' hf' hkey' => by
      by_cases hid : id' = id
      · subst hid
        obtain rfl : f = f' := some.inj (hf.symm.trans hf')
        exact absurd hkey'.symm hne
      · refine quiet_iff.mp hquiet' id' f' ((lookup_insert_ne hid).trans ?_) hkey'
        exact hfetches ▸ hf'
    obtain ⟨r, hr, hentry, honly⟩ := h.vouched key hquiet₀ e ((hless' key hne).entries e he hobj) hobj
    exact ⟨r, hrec ▸ hr, hentry, fun i tier => (hless' key hne).only (honly i tier)⟩

theorem Lacks.eq_none (h : s.Lacks blobPath i key) (tier : Tier) :
    s.contents blobPath i tier key = none := by
  cases tier with
  | ram => exact h.1
  | disk => exact h.2

theorem MayCommit.alone (h : s.MayCommit blobPath f) (st : Store) (phase : Phase) :
    (s.setStore f.store st).Alone blobPath { f with phase := phase } := by
  obtain ⟨-, hothers, -, hunvouched⟩ := h
  refine ⟨fun i hi tier => ?_, hunvouched⟩
  rw [contents_setStore, if_neg hi]
  exact (hothers i hi).eq_none tier

theorem Inv.finish (hinj : Function.Injective blobPath) (h : s.Inv blobPath)
    (hf : s.fetches.lookup id = some f) (complete : Bool) (io : FileOutcome)
    (hok : complete = true → f.phase = .writing false → s.MayCommit blobPath f) :
    (s.finish blobPath id f complete io).Inv blobPath := by
  rw [Server.finish]
  split
  case h_2 => exact h
  case h_1 failed hphase =>
    have hwriting : f.phase.isWriting = true := by rw [hphase]; rfl
    split
    case isTrue =>
      refine h.leave hf hwriting (s.setStore_lessens fun tier => ?_) rfl rfl
      rw [Store.contents_abort]
      exact .refl _
    case isFalse hcommits =>
      obtain ⟨rfl, rfl⟩ : failed = false ∧ complete = true := by simpa using hcommits
      have hmay := hok rfl hphase
      have hcarries : f.writer.Carries f.body := by
        have hprog := h.progress id f hf
        rwa [Progress, hphase] at hprog
      have hcases := (s.stores f.store).commitTier_cases hinj hcarries io
      generalize (s.stores f.store).commitTier blobPath f.writer io = r at hcases
      cases hcases with
      | failed hforgets => exact h.leave hf hwriting (s.setStore_lessens hforgets) rfl rfl
      | @discarded st hrefused hsame =>
        have hforgets (tier : Tier) :
            Forgets ((s.stores f.store).contents blobPath tier) (st.contents blobPath tier) := by
          rw [hsame tier]
          exact .refl _
        -- nothing was stored, so nothing may be there
        have hlacks := hmay.2.2.1.resolve_left hrefused
        refine h.pass hf hmay.1 (fun key _ => s.setStore_lessens hforgets key) rfl rfl rfl rfl
          ⟨hmay.alone st _, fun tier => ?_⟩
        exact (s.setStore_lessens hforgets f.key).eq_none (hlacks.eq_none tier)
      | @stored st hputs hsibling =>
        refine h.pass hf hmay.1 (fun key hne => ?_) rfl rfl rfl rfl ⟨hmay.alone st _, ?_⟩
        · refine s.setStore_lessens_at fun tier x hx => ?_
          obtain rfl | rfl := f.writer.tier.eq_or_eq_sibling tier
          · exact hputs.other key hne x hx
          · rwa [hsibling] at hx
        · rw [contents_setStore, if_pos rfl]
          exact hputs.only_self

theorem Inv.dedup (h : s.Inv blobPath) (hf : s.fetches.lookup id = some f) :
    (s.dedup blobPath id f).Inv blobPath := by
  have hprog := h.progress id f hf
  rw [Server.dedup]
  split
  case h_2 => exact h
  case h_1 stored hphase =>
    have hpast : f.phase.isWriting = false := by rw [hphase]; rfl
    rw [Progress, hphase] at hprog
    have hforgets (tier : Tier) : Forgets ((s.stores f.store).contents blobPath tier)
        ((if stored then (s.stores f.store).delete blobPath f.writer.tier.sibling f.key
          else s.stores f.store).contents blobPath tier) := by
      split
      · exact (s.stores f.store).delete_forgets _ _ tier
      · exact .refl _
    have hless := s.setStore_lessens hforgets
    refine h.advance hf hless rfl rfl rfl hpast.symm ?_
    cases stored with
    | false =>
      obtain ⟨halone, hnone⟩ := hprog
      refine ⟨((hless f.key).alone halone).advance _, fun tier => ?_⟩
      exact .of_none ((hless f.key).eq_none (hnone tier))
    | true =>
      obtain ⟨halone, honly⟩ := hprog
      refine ⟨((hless f.key).alone halone).advance _, fun tier => ?_⟩
      obtain rfl | rfl := f.writer.tier.eq_or_eq_sibling tier
      · exact (hless f.key).only honly
      · refine .of_none ?_
        rw [contents_setStore, if_pos rfl]
        exact (s.stores f.store).contents_delete_self _ _

theorem only_of_settled (hprog : s.Progress blobPath f) (hphase : f.phase = .settled) (i : Fin n)
    (tier : Tier) : Only (s.contents blobPath i tier) f.key f.object := by
  rw [Progress, hphase] at hprog
  obtain ⟨halone, honly⟩ := hprog
  by_cases hi : i = f.store
  · exact hi ▸ honly tier
  · exact .of_none (halone.others i hi tier)

theorem lookup_store (f : Freshness) (now : Instant) (key key' : Key) (x : Object) (w : Windows) :
    (f.store now key w.ttl w.grace w.maxStale).entries.lookup key' =
      if key' = key then some (Record.entry ⟨x, w, now⟩) else f.entries.lookup key' := by
  rw [store, observeWindow_entries]
  exact FinMap.lookup_insert_ite ..

theorem Inv.settle (h : s.Inv blobPath) (hf : s.fetches.lookup id = some f)
    (hphase : f.phase = .settled) (hless : ∀ key, key ≠ f.key → Lessens blobPath s s' key)
    (hrec : ∀ key, key ≠ f.key → s'.recorded.lookup key = s.recorded.lookup key)
    (hfetches : s'.fetches = (s.endFetch id).fetches)
    (hvouched : ∀ e ∈ s'.fresh.entries.lookup f.key, e.isObject = true →
      ∃ r ∈ s'.recorded.lookup f.key, e = r.entry ∧
        ∀ i tier, Only (s'.contents blobPath i tier) f.key r.object) : s'.Inv blobPath := by
  have hpast : f.phase.isWriting = false := by rw [hphase]; rfl
  have hold (id' : Nat) (f' : Fetching n) (hf' : f' ∈ s'.fetches.lookup id') :
      id' ≠ id ∧ f' ∈ s.fetches.lookup id' := by
    rw [hfetches] at hf'
    exact mem_endFetch hf'
  refine ⟨fun id' f' hf' => ?_, fun id₁ id₂ f₁ f₂ hf₁ hf₂ => ?_, fun key hquiet e he hobj => ?_⟩
  · obtain ⟨hid, hf₀⟩ := hold id' f' hf'
    have hprog := h.progress id' f' hf₀
    by_cases hkey : f'.key = f.key
    · refine hprog.of_writing ?_
      by_contra hw
      exact hid (h.alone id' id f' f hf₀ hf (Bool.not_eq_true _ ▸ hw) hpast hkey)
    · exact (hless f'.key hkey).progress hprog
  · exact h.alone id₁ id₂ f₁ f₂ (hold id₁ f₁ hf₁).2 (hold id₂ f₂ hf₂).2
  · by_cases hkey : key = f.key
    · subst hkey
      exact hvouched e he hobj
    have hquiet₀ : s.Quiet key := quiet_iff.mpr fun id' f' hf' hkey' => by
      by_cases hid : id' = id
      · subst hid
        obtain rfl : f = f' := some.inj (hf.symm.trans hf')
        exact absurd hkey'.symm hkey
      · refine quiet_iff.mp hquiet id' f' ?_ hkey'
        rw [hfetches]
        exact (lookup_erase_ne hid).trans hf'
    obtain ⟨r, hr, hentry, honly⟩ := h.vouched key hquiet₀ e ((hless key hkey).entries e he hobj) hobj
    exact ⟨r, (hrec key hkey).symm ▸ hr, hentry, fun i tier => (hless key hkey).only (honly i tier)⟩

theorem Inv.mark (h : s.Inv blobPath) (hf : s.fetches.lookup id = some f) (now : Instant) :
    (s.mark now id f).Inv blobPath := by
  have hprog := h.progress id f hf
  rw [Server.mark]
  split
  case h_2 => exact h
  case h_1 hphase =>
    split
    case h_1 hwindows =>
      refine h.settle hf hphase (fun key _ => s.endFetch_lessens id key) (fun _ _ => rfl) rfl ?_
      intro e he hobj
      rw [Progress, hphase] at hprog
      rw [hprog.1.unvouched hwindows e he] at hobj
      cases hobj
    case h_2 w hwindows =>
      have honly := only_of_settled hprog hphase
      refine h.settle hf hphase (fun key hkey => ⟨fun _ _ _ hx => hx, fun e he _ => ?_⟩)
        (fun key hkey => lookup_insert_ne hkey) rfl ?_
      · rw [lookup_store _ _ _ _ f.object, if_neg hkey] at he
        exact he
      · intro e he _
        rw [lookup_store _ _ _ _ f.object, if_pos rfl] at he
        cases he
        exact ⟨_, lookup_insert _, rfl, honly⟩

/-! ## Runs -/

theorem isObject_apply (f : Freshness) (now : Instant) (op : FreshOp)
    (hop : ∀ key ttl grace maxStale, op ≠ .store key ttl grace maxStale) {e : FreshEntry}
    (he : e ∈ (op.apply f now).entries.lookup key) (hobj : e.isObject = true) :
    e ∈ f.entries.lookup key := by
  cases op with
  | store key ttl grace maxStale => exact absurd rfl (hop key ttl grace maxStale)
  | setHitForMiss k d =>
    rw [FreshOp.apply, setHitForMiss, observeWindow_entries, lookup_put] at he
    split at he
    · cases he
      cases hobj
    · exact he
  | hitForMiss k => exact (f.hitForMiss_shrinks now k).entries key e he
  | classify k => exact (f.classify_shrinks now k).entries key e he
  | lookup k => exact (f.lookup_shrinks now k).entries key e he
  | staleWithin k | ban re => exact he
  | sweep => exact (f.sweep_shrinks now).entries key e he
  | forget k => exact (f.delete_shrinks k).entries key e he

theorem Inv.writer (h : s.Inv blobPath) (id : Nat) (i : Fin n) (m : ObjectMeta)
    (windows : Option Windows) : (s.step blobPath (.writer id i m windows)).Inv blobPath := by
  rw [Server.step]
  split
  case h_2 => exact h
  case h_1 hnone =>
    refine h.lessen (s.setFetch_lessens id _) rfl (fun id' f hf => ?_) fun id' f hf hw => ?_
    · obtain ⟨-, rfl⟩ | ⟨-, hold⟩ := mem_setFetch hf
      · exact .inr ⟨(s.stores i).writer_carries m, fun hw => by cases hw⟩
      · exact .inl hold
    · have hid : id' ≠ id := by
        rintro rfl
        rw [hnone] at hf
        cases hf
      exact ⟨f, (lookup_insert_ne hid).trans hf, rfl, hw⟩

theorem Inv.indexed (h : s.Inv blobPath) (now : Instant) (op : FreshOp) :
    (s.step blobPath (.index now op)).Inv blobPath := by
  by_cases hop : ∃ key ttl grace maxStale, op = .store key ttl grace maxStale
  · obtain ⟨key, ttl, grace, maxStale, rfl⟩ := hop
    exact h
  simp only [not_exists] at hop
  have hstep : s.step blobPath (.index now op) = { s with fresh := op.apply s.fresh now } := by
    cases op with
    | store key ttl grace maxStale => exact absurd rfl (hop key ttl grace maxStale)
    | _ => rfl
  rw [hstep]
  exact h.lessen_same (fun key => ⟨fun _ _ _ hx => hx,
    fun e he hobj => isObject_apply s.fresh now op hop he hobj⟩) rfl rfl

theorem Inv.step (hinj : Function.Injective blobPath) (h : s.Inv blobPath) (a : ServerStep n)
    (hok : s.StepOk blobPath a) : (s.step blobPath a).Inv blobPath := by
  cases a with
  | writer id i m windows => exact h.writer id i m windows
  | write id p ok =>
    rw [Server.step]
    split
    · exact h
    case h_2 f hf => exact h.write hf p ok
  | finish id complete io =>
    rw [Server.step]
    split
    · exact h
    case h_2 f hf => exact h.finish hinj hf complete io fun hc hphase => hok hc f hf hphase
  | dedup id =>
    rw [Server.step]
    split
    · exact h
    case h_2 f hf => exact h.dedup hf
  | mark now id =>
    rw [Server.step]
    split
    · exact h
    case h_2 f hf => exact h.mark hf now
  | getTier i key =>
    exact h.lessen_same (s.setStore_lessens ((s.stores i).touch_forgets key)) rfl rfl
  | index now op => exact h.indexed now op
  | vanish i file =>
    refine h.lessen_same (s.setStore_lessens fun tier => ?_) rfl rfl
    cases tier with
    | ram => exact .refl _
    | disk => exact ((s.stores i).disk.vanish_removed blobPath file).forgets blobPath
  | flush i =>
    refine h.lessen_same (s.setStore_lessens fun tier => ?_) rfl rfl
    cases tier with
    | ram => exact .refl _
    | disk => exact (s.stores i).disk.flush_forgets blobPath _

theorem inv_start (cfg : Fin n → RouterConfig) (blobs : Fin n → FinMap Str Blob)
    (index : Fin n → Option (List ObjectMeta)) : (start blobPath cfg blobs index).Inv blobPath := by
  refine ⟨fun id f hf => ?_, fun id id' f f' hf => ?_, fun key _ e he => ?_⟩
  · exact absurd hf (not_mem_none f)
  · exact absurd hf (not_mem_none f)
  · exact absurd he (not_mem_none e)

theorem object_of_classify {f : Freshness} {now : Instant} (h : (f.classify now key).2.1 ≠ .miss) :
    ∃ e ∈ f.entries.lookup key, e.isObject = true := by
  rcases he : f.entries.lookup key with _ | e
  · rw [classify, he] at h
    exact absurd rfl h
  cases e with
  | object storedAt expires graceUntil maxStaleUntil => exact ⟨_, rfl, rfl⟩
  | hitForMiss storedAt hfmUntil =>
    refine absurd ?_ h
    rw [classify, he]
    dsimp only
    split
    · rfl
    · rw [classifyPrune, he]
      dsimp only
      repeat' split
      all_goals rfl

/-- **The index vouches only for what the store took.** From an empty index and any files, in every
interleaved run whose commits meet their condition, a hit for a key that no response is about to be
recorded for is the object of the response whose windows the index has. -/
theorem run_vouches (hinj : Function.Injective blobPath) (cfg : Fin n → RouterConfig)
    (blobs : Fin n → FinMap Str Blob) (index : Fin n → Option (List ObjectMeta))
    (steps : List (ServerStep n))
    (hok : Meets (step blobPath) (StepOk blobPath) (start blobPath cfg blobs index) steps) (key : Key)
    (hquiet : (run (step blobPath) (start blobPath cfg blobs index) steps).Quiet key) :
    (run (step blobPath) (start blobPath cfg blobs index) steps).Vouches blobPath key := by
  have hinv := run_invariant (fun s a h hok => h.step hinj a hok) (inv_start cfg blobs index) hok
  intro now i x tier hclass hhit
  obtain ⟨e, he, hobj⟩ := object_of_classify hclass
  obtain ⟨r, hr, rfl, honly⟩ := hinv.vouched key hquiet e he hobj
  exact ⟨r, hr, he, honly i tier x (Store.mem_of_getTier _ hhit)⟩

end

/-! ## A playlist that outgrows its store -/

def arrive (id : Nat) (store : Fin n) (m : ObjectMeta) (body : Str) (w : Windows) (now : Instant) :
    List (ServerStep n) :=
  [.writer id store m (some w), .write id body true, .finish id true .ok, .dedup id, .mark now id]

def smallSite : Server 1 :=
  start id (fun _ => { ramMaxBytes := 8, diskMaxBytes := 0, smallObjectThreshold := 8 })
    (fun _ => ∅) fun _ => none

def playlistRun : List (ServerStep 1) :=
  arrive 1 0 { key := lit "live.m3u8", size := 3, etag := lit "1" } (lit "old") { ttl := second } 0

/-- A second later it is fetched again, in chunks, and has grown. -/
def refetchRun (body : Str) : List (ServerStep 1) :=
  playlistRun ++
    arrive 2 0 { key := lit "live.m3u8", size := -1, etag := lit "2" } body { ttl := second }
      second.toInt

theorem run_vouches_refetch :
    let s := run (step id) smallSite (refetchRun (lit "old, new"))
    s.Vouches id (lit "live.m3u8") ∧
      (s.fresh.classify second.toInt (lit "live.m3u8")).2.1 = .fresh ∧
      (s.stores 0).getTier id (lit "live.m3u8") = some
        (({ key := lit "live.m3u8", size := 8, etag := lit "2" } : ObjectMeta).with (lit "old, new"),
          .ram) :=
  ⟨run_vouches Function.injective_id _ _ _ (refetchRun (lit "old, new")) (by decide) _ (by decide),
    by decide, rfl⟩

/-- **The index vouches for a survivor.** What does not fit is discarded without an error; the old
playlist is then served as fresh, on the word of the new one. -/
theorem not_vouches_after_discard :
    let s := run (step id) smallSite (refetchRun (lit "old, newer"))
    s.Quiet (lit "live.m3u8") ∧ ¬ s.Vouches id (lit "live.m3u8") := by
  refine ⟨by decide, fun h => ?_⟩
  obtain ⟨r, hr, -, hx⟩ := h second.toInt 0
    (({ key := lit "live.m3u8", etag := lit "1" } : ObjectMeta).with (lit "old")) .ram (by decide) rfl
  cases hr
  exact absurd hx (by decide)

end Server

end Cadish
