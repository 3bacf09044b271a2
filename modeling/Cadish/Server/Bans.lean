import Mathlib.Data.List.DropRight
import Mathlib.Tactic.Linarith
import Cadish.Lib.Run
import Cadish.Server.Freshness

/-!
# Bans

A regex purge is appended to the ban list, and an entry stored before a ban that matches its key
counts as absent. **Pruning bans by age is sound**: an entry older than a pruned ban is dead, if
windows do not wrap around and stages do not run backwards. **The cap is not**: it may drop a ban
that stands against a live entry.
-/

namespace Cadish

open Transition List Freshness

def FreshEntry.DeadAt (now : Instant) : FreshEntry → Prop
  | .object _ expires graceUntil maxStaleUntil =>
    expires ≤ now ∧ graceUntil ≤ now ∧ ∀ m ∈ maxStaleUntil, m ≤ now
  | .hitForMiss _ hfmUntil => hfmUntil ≤ now

/-- The stages of an object do not run backwards. -/
def FreshEntry.Staged : FreshEntry → Prop
  | .object _ expires graceUntil _ => expires ≤ graceUntil
  | .hitForMiss _ _ => True

theorem FreshEntry.DeadAt.mono {e : FreshEntry} {now now' : Instant} (h : e.DeadAt now)
    (hle : now ≤ now') : e.DeadAt now' := by
  cases e with
  | object storedAt expires graceUntil maxStaleUntil =>
    exact ⟨h.1.trans hle, h.2.1.trans hle, fun m hm => (h.2.2 m hm).trans hle⟩
  | hitForMiss storedAt hfmUntil => exact le_trans h hle

namespace Freshness

variable {f : Freshness} {key : Key} {now : Instant}

/-! ## Keys that count as absent -/

/-- No entry of the key can serve: each is banned or dead. -/
def Void (f : Freshness) (now : Instant) (key : Key) : Prop :=
  ∀ e ∈ f.entries.lookup key, f.banned key e.storedAt = true ∨ e.DeadAt now

theorem classifyVerdict_void {e : FreshEntry} {b : Bool} (h : b = true ∨ e.DeadAt now) :
    classifyVerdict now e b = (.miss, false) := by
  cases e with
  | hitForMiss storedAt hfmUntil =>
    rcases h with rfl | hd
    · rfl
    · simp [classifyVerdict, not_lt.mpr (show hfmUntil ≤ now from hd)]
  | object storedAt expires graceUntil maxStaleUntil =>
    rcases h with rfl | ⟨hx, hg, -⟩
    · rfl
    · simp [classifyVerdict, not_lt.mpr hx, not_lt.mpr hg]

theorem classify_of_void (h : f.Void now key) : (f.classify now key).2 = (.miss, false) := by
  rcases he : f.entries.lookup key with _ | e
  · simp only [classify, he]
  · rw [classify_eq he]
    exact classifyVerdict_void (h e he)

theorem staleWithin_of_void (h : f.Void now key) : f.staleWithin now key = false := by
  unfold staleWithin
  split
  next storedAt expires graceUntil maxStaleUntil he =>
    rcases h _ he with hb | ⟨-, -, hm⟩
    · simp only [FreshEntry.storedAt] at hb
      rw [if_pos hb]
    · have hle : ¬ now < maxStaleUntil := not_lt.mpr (hm _ rfl)
      simp [hle]
  next => rfl

theorem banned_eq_any (f : Freshness) (key : Key) (storedAt : Instant) :
    f.banned key storedAt = f.bans.any fun b => decide (storedAt < b.issuedAt) && b.re key := by
  rw [banned]
  split
  case isTrue hlen => rw [length_eq_zero_iff.mp hlen, any_nil]
  case isFalse => rfl

theorem banned_of_mem {b : BanEntry} {storedAt : Instant} (hb : b ∈ f.bans)
    (hlt : storedAt < b.issuedAt) (hre : b.re key = true) : f.banned key storedAt = true := by
  rw [banned_eq_any, List.any_eq_true]
  exact ⟨b, hb, by simp [hlt, hre]⟩

end Freshness

/-! ## Runs of the index -/

inductive FreshOp where
  | store (key : Key) (ttl grace maxStale : Duration)
  | setHitForMiss (key : Key) (d : Duration)
  | hitForMiss (key : Key)
  | classify (key : Key)
  | lookup (key : Key)
  | staleWithin (key : Key)
  | sweep
  | ban (re : Key → Bool)
  | forget (key : Key)

namespace FreshOp

def apply (f : Freshness) (now : Instant) : FreshOp → Freshness
  | .store key ttl grace maxStale => f.store now key ttl grace maxStale
  | .setHitForMiss key d => f.setHitForMiss now key d
  | .hitForMiss key => (f.hitForMiss now key).1
  | .classify key => (f.classify now key).1
  | .lookup key => (f.lookup now key).1
  | .staleWithin _ => f
  | .sweep => f.sweep now
  | .ban re => (f.ban now re).1
  | .forget key => f.forget key

def Stores (key : Key) : FreshOp → Prop
  | .store k _ _ _ => k = key
  | .setHitForMiss k _ => k = key
  | _ => False

/-- The half range of a duration: twice a window in it does not overflow. -/
def windowLimit : Int := 2 ^ 62

/-- The operation keeps the ages of bans meaningful: a stored object's stages do not run
backwards, no window passes the half range, and a ban finds room in the list. -/
def Regular (f : Freshness) (now : Instant) : FreshOp → Prop
  | .store _ ttl grace maxStale =>
    0 ≤ grace.toInt ∧ 0 ≤ maxStale.toInt ∧
      ttl.toInt + grace.toInt + maxStale.toInt ≤ windowLimit
  | .setHitForMiss _ d => d.toInt ≤ windowLimit
  | .ban _ => (f.keptBans now).length < maxBans
  | _ => True

instance (f : Freshness) (now : Instant) : (op : FreshOp) → Decidable (op.Regular f now)
  | .store _ _ _ _ => inferInstanceAs (Decidable (_ ∧ _ ∧ _))
  | .setHitForMiss _ _ => inferInstanceAs (Decidable (_ ≤ _))
  | .ban _ => inferInstanceAs (Decidable (_ < _))
  | .hitForMiss _ | .classify _ | .lookup _ | .staleWithin _ | .sweep | .forget _ =>
    inferInstanceAs (Decidable True)

end FreshOp

structure FreshRun where
  index : Freshness
  clock : Instant

namespace FreshRun

variable (s : FreshRun) (a : Instant × FreshOp)

def step : FreshRun := ⟨a.2.apply s.index a.1, a.1⟩

def Ordered : Prop := s.clock ≤ a.1

def Regular : Prop :=
  s.clock ≤ a.1 ∧ a.2.Regular s.index a.1

instance (s : FreshRun) (a : Instant × FreshOp) : Decidable (s.Ordered a) :=
  inferInstanceAs (Decidable (s.clock ≤ a.1))

instance (s : FreshRun) (a : Instant × FreshOp) : Decidable (s.Regular a) :=
  inferInstanceAs (Decidable (s.clock ≤ a.1 ∧ a.2.Regular s.index a.1))

def start (t₀ : Instant) : FreshRun := ⟨.new, t₀⟩

end FreshRun

namespace Freshness

variable {clock now : Instant} {f : Freshness} {e : FreshEntry} {key : Key} {w : Duration}
  {b : BanEntry}

/-! ## The invariant -/

/-- No entry comes from the future, and each is dead once the longest window has passed since
it was stored. -/
structure Bounded (f : Freshness) (clock : Instant) : Prop where
  nonneg : 0 ≤ f.maxGrace.toInt
  limit : f.maxGrace.toInt ≤ FreshOp.windowLimit
  past : ∀ key e, e ∈ f.entries.lookup key → e.storedAt ≤ clock
  dead : ∀ key e, e ∈ f.entries.lookup key → e.DeadAt (e.storedAt + f.maxGrace.toInt)

/-- The ban still does its work: it is in the list, or every entry it would strike is dead. -/
def Enforces (f : Freshness) (clock : Instant) (b : BanEntry) : Prop :=
  b ∈ f.bans ∨ ∀ key e, e ∈ f.entries.lookup key → e.storedAt < b.issuedAt → e.DeadAt clock

theorem observeWindow_maxGrace_toInt (f : Freshness) (w : Duration) :
    (f.observeWindow w).maxGrace.toInt = max f.maxGrace.toInt w.toInt := by
  rw [observeWindow]
  split
  next h => rw [max_eq_left (Int64.le_iff_toInt_le.mp h)]
  next h =>
    rw [Int64.le_iff_toInt_le, not_le] at h
    rw [max_eq_right h.le]

theorem lookup_put (f : Freshness) (key key' : Key) (e : FreshEntry) :
    (f.put key e).entries.lookup key' = if key' = key then some e else f.entries.lookup key' :=
  FinMap.lookup_insert_ite ..

theorem bounded_new (t₀ : Instant) : new.Bounded t₀ := by
  refine ⟨by decide, by decide, ?_, ?_⟩ <;> intro key e he <;> cases he

theorem Bounded.shrink {f' : Freshness} (h : f.Bounded clock) (hs : Shrinks f f') (hle : clock ≤ now) :
    f'.Bounded now := by
  refine ⟨?_, ?_, fun key e he => ?_, fun key e he => ?_⟩
  · rw [hs.maxGrace]; exact h.nonneg
  · rw [hs.maxGrace]; exact h.limit
  · exact (h.past key e (hs.entries key e he)).trans hle
  · rw [hs.maxGrace]; exact h.dead key e (hs.entries key e he)

theorem Bounded.record (h : f.Bounded clock) (hle : clock ≤ now) (hat : e.storedAt = now)
    (hdead : e.DeadAt (now + w.toInt)) (hw : w.toInt ≤ FreshOp.windowLimit) :
    ((f.put key e).observeWindow w).Bounded now := by
  have hmax : ((f.put key e).observeWindow w).maxGrace.toInt = max f.maxGrace.toInt w.toInt :=
    observeWindow_maxGrace_toInt ..
  have hl := h.limit
  have hn := h.nonneg
  refine ⟨?_, ?_, fun key' e' he => ?_, fun key' e' he => ?_⟩
  · rw [hmax]; exact hn.trans (le_max_left ..)
  · rw [hmax]; exact max_le hl hw
  all_goals
    rw [observeWindow_entries, lookup_put] at he
    split at he
  · cases he; exact hat.le
  · exact (h.past key' e' he).trans hle
  · cases he
    exact hdead.mono (by have := le_max_right f.maxGrace.toInt w.toInt; linarith)
  · exact (h.dead key' e' he).mono (by have := le_max_left f.maxGrace.toInt w.toInt; linarith)

theorem Enforces.shrink {f' : Freshness} (h : f.Enforces clock b) (hs : Shrinks f f')
    (hle : clock ≤ now) : f'.Enforces now b := by
  rcases h with hmem | hdead
  · left; rw [hs.bans]; exact hmem
  · right
    intro key e he hlt
    exact (hdead key e (hs.entries key e he) hlt).mono hle

theorem Enforces.record (h : f.Enforces clock b) (hle : clock ≤ now) (hat : e.storedAt = now)
    (hb : b.issuedAt ≤ now) : ((f.put key e).observeWindow w).Enforces now b := by
  rcases h with hmem | hdead
  · left; rw [observeWindow_bans]; exact hmem
  right
  intro key' e' he hlt
  rw [observeWindow_entries, lookup_put] at he
  split at he
  · cases he; exact absurd hlt (not_lt.mpr (hat ▸ hb))
  · exact (hdead key' e' he hlt).mono hle

theorem toInt_neg_two_mul (h0 : 0 ≤ w.toInt) (hl : w.toInt ≤ FreshOp.windowLimit) :
    (-2 * w).toInt = -2 * w.toInt := by
  rw [FreshOp.windowLimit] at hl
  have h2 : (-2 : Int64).toInt = -2 := by decide
  rw [Int64.toInt_mul, h2]
  exact Int.bmod_eq_of_le (by omega) (by omega)

/-- **Pruning by age is sound.** What is stored before a ban that is too old to be kept is
dead. -/
theorem Bounded.dead_of_pruned (h : f.Bounded clock) (hold : ¬ now.add (-2 * f.maxGrace) < b.issuedAt)
    (he : e ∈ f.entries.lookup key) (hlt : e.storedAt < b.issuedAt) : e.DeadAt now := by
  have h0 := h.nonneg
  rw [Instant.add, toInt_neg_two_mul h0 h.limit] at hold
  exact (h.dead key e he).mono (by linarith)

theorem ban_bans (f : Freshness) (now : Instant) (re : Key → Bool) :
    (f.ban now re).1.bans = (f.keptBans now ++ [BanEntry.mk re now]).rtake maxBans := by
  simp only [ban, rtake, length_append, length_singleton]
  by_cases hfull : maxBans ≤ (f.keptBans now).length
  · have hcut : (f.keptBans now).length + 1 - maxBans = (f.keptBans now).length - maxBans + 1 := by
      omega
    have hpos : 0 < maxBans := by decide
    rw [if_pos hfull, hcut, drop_append_of_le_length (by omega)]
  · have hcut : (f.keptBans now).length + 1 - maxBans = 0 := by omega
    rw [if_neg hfull, hcut, drop_zero]

theorem ban_bans_of_room {re : Key → Bool} (hroom : (f.keptBans now).length < maxBans) :
    (f.ban now re).1.bans = f.keptBans now ++ [⟨re, now⟩] := by
  rw [ban_bans, rtake, length_append, length_singleton, Nat.sub_eq_zero_of_le hroom, drop_zero]

theorem Enforces.ban {re : Key → Bool} (h : f.Enforces clock b) (hb : f.Bounded clock)
    (hle : clock ≤ now) (hroom : (f.keptBans now).length < maxBans) :
    (f.ban now re).1.Enforces now b := by
  rcases h with hmem | hdead
  · by_cases hkept : now.add (-2 * f.maxGrace) < b.issuedAt
    · left
      rw [ban_bans_of_room hroom, keptBans]
      simp [hmem, hkept]
    · right
      intro key e he hlt
      exact hb.dead_of_pruned hkept he hlt
  · right
    intro key e he hlt
    exact (hdead key e he hlt).mono hle

end Freshness

namespace FreshOp

theorem toInt_stages {ttl grace maxStale : Duration} (hg : 0 ≤ grace.toInt)
    (hm : 0 ≤ maxStale.toInt)
    (hw : ttl.toInt + grace.toInt + maxStale.toInt ≤ windowLimit) :
    (ttl + grace).toInt = ttl.toInt + grace.toInt ∧
      (ttl + grace + maxStale).toInt = ttl.toInt + grace.toInt + maxStale.toInt := by
  rw [windowLimit] at hw
  have hlow := ttl.le_toInt
  have hsum : (ttl + grace).toInt = ttl.toInt + grace.toInt := by
    rw [Int64.toInt_add]
    exact Int.bmod_eq_of_le (by omega) (by omega)
  refine ⟨hsum, ?_⟩
  rw [Int64.toInt_add, hsum]
  exact Int.bmod_eq_of_le (by omega) (by omega)

theorem apply_cases (f : Freshness) (now : Instant) (op : FreshOp) :
    Freshness.Shrinks f (op.apply f now) ∨
    (∃ key e w, op.Stores key ∧ e.storedAt = now ∧
      (op.Regular f now → w.toInt ≤ windowLimit ∧ e.DeadAt (now + w.toInt) ∧ e.Staged) ∧
      op.apply f now = (f.put key e).observeWindow w) ∨
    ∃ re, op = .ban re := by
  cases op with
  | store key ttl grace maxStale =>
    refine .inr (.inl ⟨key, _, _, rfl, rfl, ?_, rfl⟩)
    rintro ⟨hg, hm, hw⟩
    obtain ⟨h1, h2⟩ := toInt_stages hg hm hw
    refine ⟨by rw [h2]; exact hw, ?_⟩
    simp only [FreshEntry.Staged, Instant.add]
    refine ⟨⟨by linarith, by linarith, fun m hms => ?_⟩, by linarith⟩
    split at hms
    · cases hms; exact le_rfl
    · cases hms
  | setHitForMiss key d =>
    refine .inr (.inl ⟨key, _, _, rfl, rfl, fun hd => ⟨hd, ?_, ?_⟩, rfl⟩)
    · exact le_rfl
    · trivial
  | hitForMiss key => exact .inl (f.hitForMiss_shrinks now key)
  | classify key => exact .inl (f.classify_shrinks now key)
  | lookup key => exact .inl (f.lookup_shrinks now key)
  | staleWithin key => exact .inl (.refl f)
  | sweep => exact .inl (f.sweep_shrinks now)
  | ban re => exact .inr (.inr ⟨re, rfl⟩)
  | forget key => exact .inl (f.delete_shrinks key)

end FreshOp

theorem Freshness.Bounded.apply {f : Freshness} {clock now : Instant} {op : FreshOp}
    (h : f.Bounded clock) (hle : clock ≤ now) (hr : (∀ re, op ≠ .ban re) → op.Regular f now) :
    (op.apply f now).Bounded now := by
  obtain hs | ⟨key, e, w, hst, hat, hwin, heq⟩ | ⟨re, rfl⟩ := op.apply_cases f now
  · exact h.shrink hs hle
  · obtain ⟨hw, hdead, -⟩ := hwin <| hr <| by
      rintro re rfl
      exact hst
    rw [heq]
    exact h.record hle hat hdead hw
  · exact ⟨h.nonneg, h.limit, fun k e he => (h.past k e he).trans hle, h.dead⟩

namespace FreshRun

variable {key : Key}

variable (s : FreshRun) (t : Instant) (a : Instant × FreshOp)

theorem bounded_step (hb : s.index.Bounded s.clock) (ha : s.Regular a) :
    (s.step a).index.Bounded (s.step a).clock := hb.apply ha.1 fun _ => ha.2

theorem enforces_step (b : BanEntry) (hb : s.index.Bounded s.clock) (hpast : b.issuedAt ≤ s.clock)
    (h : s.index.Enforces s.clock b) (ha : s.Regular a) :
    (s.step a).index.Enforces (s.step a).clock b := by
  obtain ⟨now, op⟩ := a
  obtain ⟨hle, hreg⟩ := ha
  obtain hs | ⟨key, e, w, -, hat, -, heq⟩ | ⟨re, rfl⟩ := op.apply_cases s.index now
  · exact h.shrink hs hle
  · simp only [step, heq]
    exact h.record hle hat (hpast.trans hle)
  · exact h.ban hb hle hreg

theorem lookup_step {e : FreshEntry} (ha : ¬ a.2.Stores key)
    (he : e ∈ (s.step a).index.entries.lookup key) : e ∈ s.index.entries.lookup key := by
  obtain ⟨now, op⟩ := a
  obtain hs | ⟨key', e', w, hst, -, -, heq⟩ | ⟨re, rfl⟩ := op.apply_cases s.index now
  · exact hs.entries key e he
  · have hne : key ≠ key' := fun h => ha (h ▸ hst)
    simp only [step, heq, observeWindow_entries, lookup_put, if_neg hne] at he
    exact he
  · exact he

/-- What a run of regular operations that record nothing for `key` keeps: the ban `b` at work
on it. -/
structure Struck (b : BanEntry) (key : Key) (s : FreshRun) : Prop where
  bounded : s.index.Bounded s.clock
  past : b.issuedAt ≤ s.clock
  enforces : s.index.Enforces s.clock b
  older : ∀ e ∈ s.index.entries.lookup key, e.storedAt < b.issuedAt

theorem Struck.step {b : BanEntry} (s : FreshRun) (a : Instant × FreshOp) (h : Struck b key s)
    (ha : s.Regular a ∧ ¬ a.2.Stores key) : Struck b key (s.step a) where
  bounded := bounded_step s a h.bounded ha.1
  past := h.past.trans ha.1.1
  enforces := enforces_step s a b h.bounded h.past h.enforces ha.1
  older e he := h.older e (lookup_step s a ha.2 he)

theorem Struck.void {b : BanEntry} {s : FreshRun} (h : Struck b key s) (hre : b.re key = true)
    {now : Instant} (hnow : s.clock ≤ now) : s.index.Void now key := by
  intro e he
  have hlt := h.older e he
  rcases h.enforces with hmem | hdead
  · exact .inl (banned_of_mem hmem hlt hre)
  · exact .inr ((hdead key e he hlt).mono hnow)

/-- **Ban soundness.** In a run of regular operations, once a ban that matches the key is
issued after the key's entry was stored, the key is a miss, no hit-for-miss and no fallback at
every later instant, as long as nothing is recorded for it. -/
theorem ban_sound (t₀ t : Instant) (pre post : List (Instant × FreshOp)) (re : Key → Bool)
    (key : Key) (hrun : Meets step Regular (start t₀) (pre ++ (t, .ban re) :: post))
    (hre : re key = true)
    (holder : ∀ e ∈ (run step (start t₀) pre).index.entries.lookup key, e.storedAt < t)
    (hpost : ∀ a ∈ post, ¬ a.2.Stores key) (now : Instant)
    (hnow : (run step (start t₀) (pre ++ (t, .ban re) :: post)).clock ≤ now) :
    ((run step (start t₀) (pre ++ (t, .ban re) :: post)).index.classify now key).2 =
        (.miss, false) ∧
      (run step (start t₀) (pre ++ (t, .ban re) :: post)).index.staleWithin now key = false := by
  rw [meets_append] at hrun
  obtain ⟨hpre, hban, hrest⟩ := hrun
  rw [run_append] at hnow ⊢
  have hb : (run step (start t₀) pre).index.Bounded (run step (start t₀) pre).clock :=
    run_invariant bounded_step (bounded_new t₀) hpre
  have hstart : Struck ⟨re, t⟩ key ((run step (start t₀) pre).step (t, .ban re)) := by
    refine ⟨bounded_step _ _ hb hban, le_rfl, .inl ?_, holder⟩
    simp only [step, FreshOp.apply, ban_bans_of_room hban.2]
    simp
  have hend := run_invariant Struck.step hstart (hrest.and_mem hpost)
  have hvoid := hend.void hre hnow
  exact ⟨classify_of_void hvoid, staleWithin_of_void hvoid⟩

theorem ban_sound_page :
    ((run step (start 0) ([(0, .store (lit "GET/page") 1000 10 20)] ++
      (1, .ban fun k => k == lit "GET/page") :: [(5, .sweep)])).index.classify 9
        (lit "GET/page")).2 = (.miss, false) :=
  (ban_sound 0 1 [(0, .store (lit "GET/page") 1000 10 20)] [(5, .sweep)]
    (fun k => k == lit "GET/page") (lit "GET/page") (by decide) (by decide) (by decide)
    (by simp [FreshOp.Stores]) 9 (by decide)).1

/-! ## The cap -/

theorem rtake_rtake_append {α : Type*} (l m : List α) (n : Nat) :
    (l.rtake n ++ m).rtake n = (l ++ m).rtake n := by
  simp only [rtake, drop_append, length_append, length_drop, drop_drop]
  congr 2 <;> omega

theorem flood_bans (re : Key → Bool) (n : Nat) (hnew : t.add (-2 * s.index.maxGrace) < t)
    (hkept : ∀ b ∈ s.index.bans, t.add (-2 * s.index.maxGrace) < b.issuedAt)
    (hlen : s.index.bans.length ≤ maxBans) :
    (run step s (replicate n (t, .ban re))).index =
      { s.index with
        bans := (s.index.bans ++ replicate n (BanEntry.mk re t)).rtake maxBans } := by
  induction n generalizing s with
  | zero => simp [rtake, Nat.sub_eq_zero_of_le hlen]
  | succ n ih =>
    have hall : s.index.keptBans t = s.index.bans := by
      rw [keptBans, filter_eq_self]
      intro b hb
      exact decide_eq_true (hkept b hb)
    have hnext : (s.step (t, .ban re)).index.bans =
        (s.index.bans ++ [BanEntry.mk re t]).rtake maxBans := by
      rw [step, FreshOp.apply, ban_bans, hall]
    have hsub : ∀ b ∈ (s.step (t, .ban re)).index.bans, b ∈ s.index.bans ∨ b = ⟨re, t⟩ := by
      intro b hb
      rw [hnext] at hb
      simpa using mem_of_mem_drop hb
    rw [replicate_succ, run_cons, ih]
    · rw [hnext, rtake_rtake_append, append_assoc]
      rfl
    · exact hnew
    · intro b hb
      rcases hsub b hb with hb | rfl
      · exact hkept b hb
      · exact hnew
    · rw [hnext]
      simp [rtake]
      omega

theorem flood_ordered (op : FreshOp) (n : Nat) (h : s.clock = t) :
    Meets step Ordered s (replicate n (t, op)) ∧
      (run step s (replicate n (t, op))).clock = t := by
  induction n generalizing s with
  | zero => exact ⟨trivial, h⟩
  | succ n ih =>
    obtain ⟨hm, hc⟩ := ih (s.step (t, op)) rfl
    exact ⟨⟨h.le, hm⟩, hc⟩

/-- **The cap revives.** Whatever bans stood against it, an object within its TTL is fresh again
after `maxBans` bans that do not concern it. -/
theorem flood_revives (key : Key) {storedAt expires graceUntil : Instant}
    {maxStaleUntil : Option Instant}
    (he : s.index.entries.lookup key = some (.object storedAt expires graceUntil maxStaleUntil))
    (hfresh : t < expires) (hnew : t.add (-2 * s.index.maxGrace) < t)
    (hkept : ∀ b ∈ s.index.bans, t.add (-2 * s.index.maxGrace) < b.issuedAt)
    (hlen : s.index.bans.length ≤ maxBans) :
    ((run step s (replicate maxBans (t, .ban fun _ => false))).index.classify
      t key).2 = (.fresh, false) := by
  rw [flood_bans s t _ _ hnew hkept hlen]
  have htail : (s.index.bans ++ replicate maxBans
      (BanEntry.mk (fun _ => false) t)).rtake maxBans =
      replicate maxBans (BanEntry.mk (fun _ => false) t) := by
    rw [rtake, length_append, length_replicate, Nat.add_sub_cancel, drop_left]
  rw [htail]
  have hfree : ∀ at', banned { s.index with
      bans := replicate maxBans (BanEntry.mk (fun _ => false) t) } key at' =
      false := by
    intro at'
    rw [banned_eq_any, List.any_eq_false]
    intro b hb
    rw [eq_of_mem_replicate hb]
    simp
  simp [classify, he, hfree, hfresh]

theorem ban_sound_fails_at_cap :
    ¬ ∀ (t₀ t : Instant) (pre post : List (Instant × FreshOp)) (re : Key → Bool) (key : Key),
      Meets step Ordered (start t₀) (pre ++ (t, .ban re) :: post) → re key = true →
      (∀ e ∈ (run step (start t₀) pre).index.entries.lookup key, e.storedAt < t) →
      (∀ a ∈ post, ¬ a.2.Stores key) →
      ∀ now, (run step (start t₀) (pre ++ (t, .ban re) :: post)).clock ≤ now →
        ((run step (start t₀) (pre ++ (t, .ban re) :: post)).index.classify now key).2 =
          (.miss, false) := by
  intro h
  let page : Key := lit "GET/page"
  let re : Key → Bool := fun k => k == page
  let purged : FreshRun := run step (start 0) [(0, .store page 1000 0 0), (1, .ban re)]
  -- kept behind an equation, so that the storm is never unrolled
  obtain ⟨flood, hdef⟩ : ∃ l : List (Instant × FreshOp),
      l = replicate maxBans (1, .ban fun _ => false) := ⟨_, rfl⟩
  have hfresh : ((run step purged flood).index.classify 1 page).2 = (.fresh, false) := by
    rw [hdef]
    exact flood_revives purged 1 page (by rfl) (by decide) (by decide) (by decide) (by decide)
  obtain ⟨hmeets, hclock⟩ := flood_ordered purged 1 (.ban fun _ => false) maxBans rfl
  rw [← hdef] at hmeets hclock
  have hother : ∀ a ∈ flood, ¬ a.2.Stores page := by
    intro a ha
    rw [hdef] at ha
    rw [eq_of_mem_replicate ha]
    exact id
  have hmiss : ((run step purged flood).index.classify 1 page).2 = (.miss, false) :=
    h 0 1 [(0, .store page 1000 0 0)] flood re page ⟨by decide, by decide, hmeets⟩
      (by decide) (by decide) hother 1 hclock.le
  rw [hfresh] at hmiss
  exact absurd hmiss (by decide)

end FreshRun

end Cadish
