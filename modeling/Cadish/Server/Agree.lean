import Cadish.Server.Bans

/-!
# The index with and without other keys

The operations on some keys of the index are left out of a run. The entries of the others stay the
same; what the keys share is the ban list, and which bans are pruned depends on the longest window
of *any* key. Pruned bans strike only dead entries (`Bounded.dead_of_pruned`), on which they make no
difference (`classify_dead`).
-/

namespace Cadish

open List FreshOp Freshness

namespace Freshness

variable {e : FreshEntry}

/-! ## What the index says of a key -/

variable {f g : Freshness} {now : Instant} {key : Key}

/-- Both indices have the same entry for the key, and it is dead or they agree whether it is
banned. -/
def Same (f g : Freshness) (now : Instant) (key : Key) : Prop :=
  f.entries.lookup key = g.entries.lookup key ∧
    ∀ e ∈ g.entries.lookup key, e.DeadAt now ∨
      f.banned key e.storedAt = g.banned key e.storedAt

/-- Two lookups give one answer and leave one entry for the key. -/
def Alike {ο : Type} (key : Key) (x y : Freshness × ο) : Prop :=
  x.2 = y.2 ∧ x.1.entries.lookup key = y.1.entries.lookup key

theorem Same.decided {ο : Type} (ask : Freshness → Freshness × ο) (absent : ο)
    (drops : FreshEntry → Bool → Bool) (verdict : FreshEntry → Bool → ο)
    (hnone : ∀ f : Freshness, f.entries.lookup key = none → ask f = (f, absent))
    (hsome : ∀ (f : Freshness) e, f.entries.lookup key = some e →
      ask f = (if drops e (f.banned key e.storedAt) then f.delete key else f,
        verdict e (f.banned key e.storedAt)))
    (hdead : ∀ e b, e.DeadAt now → drops e b = drops e true ∧ verdict e b = verdict e true)
    (h : Same f g now key) : Alike key (ask f) (ask g) := by
  obtain ⟨hentry, hbanned⟩ := h
  rcases hg : g.entries.lookup key with _ | e
  · rw [hnone g hg, hnone f (hentry.trans hg)]
    exact ⟨rfl, hentry⟩
  have hsame : drops e (f.banned key e.storedAt) = drops e (g.banned key e.storedAt) ∧
      verdict e (f.banned key e.storedAt) = verdict e (g.banned key e.storedAt) := by
    obtain hd | hb := hbanned e hg
    · obtain ⟨hdrops, hverdict⟩ := hdead e (f.banned key e.storedAt) hd
      obtain ⟨hdrops', hverdict'⟩ := hdead e (g.banned key e.storedAt) hd
      exact ⟨hdrops.trans hdrops'.symm, hverdict.trans hverdict'.symm⟩
    · rw [hb]
      exact ⟨rfl, rfl⟩
  rw [hsome g e hg, hsome f e (hentry.trans hg), hsame.1, hsame.2]
  refine ⟨rfl, ?_⟩
  split
  · simp [delete]
  · exact hentry

theorem classify_dead (hd : e.DeadAt now) (b : Bool) :
    classifyDrops now e b = classifyDrops now e true ∧
      classifyVerdict now e b = classifyVerdict now e true := by
  have hverdict : ∀ b, classifyVerdict now e b = (.miss, false) := fun b =>
    classifyVerdict_void (.inr hd)
  refine ⟨?_, by rw [hverdict, hverdict]⟩
  cases e with
  | hitForMiss storedAt hfmUntil => simp [classifyDrops, not_lt.mpr (show hfmUntil ≤ now from hd)]
  | object storedAt expires graceUntil maxStaleUntil =>
    obtain ⟨hx, hg, hm⟩ := hd
    simp [classifyDrops, not_lt.mpr hx, not_lt.mpr hg, prunable_of_le hm]

theorem Same.classify (h : Same f g now key) : Alike key (f.classify now key) (g.classify now key) :=
  h.decided (fun f => f.classify now key) (.miss, false) (classifyDrops now) (classifyVerdict now)
    (fun f hf => by simp only [Freshness.classify, hf]) (fun f e he => classify_eq he)
    fun e b hd => classify_dead hd b

theorem Same.hitForMiss (h : Same f g now key) :
    Alike key (f.hitForMiss now key) (g.hitForMiss now key) := by
  refine h.decided (fun f => f.hitForMiss now key) false
    (fun e b => !e.isObject && classifyDrops now e b) (fun e b => (classifyVerdict now e b).2)
    (fun f hf => by simp only [Freshness.hitForMiss, hf]) (fun f e he => hitForMiss_eq he)
    fun e b hd => ?_
  obtain ⟨hdrops, hverdict⟩ := classify_dead hd b
  exact ⟨congrArg _ hdrops, congrArg _ hverdict⟩

theorem Same.lookup (h : Same f g now key) : Alike key (f.lookup now key) (g.lookup now key) := by
  refine h.decided (fun f => f.lookup now key) .miss
    (fun e b => e.isObject && classifyDrops now e b) (fun e b => (classifyVerdict now e b).1)
    (fun f hf => by simp only [Freshness.lookup, hf]) (fun f e he => lookup_eq he) fun e b hd => ?_
  obtain ⟨hdrops, hverdict⟩ := classify_dead hd b
  exact ⟨congrArg _ hdrops, congrArg _ hverdict⟩

theorem Same.staleWithin (h : Same f g now key) : f.staleWithin now key = g.staleWithin now key := by
  obtain ⟨hentry, hbanned⟩ := h
  rw [Freshness.staleWithin, Freshness.staleWithin, hentry]
  rcases hg : g.entries.lookup key with _ | e
  · rfl
  cases e with
  | hitForMiss storedAt hfmUntil => rfl
  | object storedAt expires graceUntil maxStaleUntil =>
    cases maxStaleUntil with
    | none => rfl
    | some m =>
      dsimp only
      obtain ⟨-, -, hm⟩ | hb := hbanned _ hg
      · have hover : decide (now < m) = false := decide_eq_false (not_lt.mpr (hm m rfl))
        simp [hover]
      · simp only [FreshEntry.storedAt] at hb
        rw [hb]

theorem reclaimable_of_dead (hd : e.DeadAt now) : f.entryReclaimable now key e = true := by
  unfold entryReclaimable
  split
  · rfl
  cases e with
  | hitForMiss storedAt hfmUntil => simp [not_lt.mpr (show hfmUntil ≤ now from hd)]
  | object storedAt expires graceUntil maxStaleUntil =>
    obtain ⟨-, hg, hm⟩ := hd
    simp [not_lt.mpr hg, prunable_of_le hm]

theorem Same.sweep (h : Same f g now key) :
    (f.sweep now).entries.lookup key = (g.sweep now).entries.lookup key := by
  obtain ⟨hentry, hbanned⟩ := h
  rw [Freshness.sweep, Freshness.sweep, FinMap.lookup_filter, FinMap.lookup_filter, hentry]
  rcases hg : g.entries.lookup key with _ | e
  · rfl
  have hsame : f.entryReclaimable now key e = g.entryReclaimable now key e := by
    obtain hd | hb := hbanned e hg
    · rw [reclaimable_of_dead hd, reclaimable_of_dead hd]
    · simp only [entryReclaimable, hb]
  simp only [Option.filter, hsame]

end Freshness

/-! ## Two runs of the index -/

namespace FreshOp

variable {key : Key}

def key? : FreshOp → Option Key
  | .store key _ _ _ | .setHitForMiss key _ | .hitForMiss key | .classify key | .lookup key
  | .staleWithin key | .forget key => some key
  | .sweep | .ban _ => none

/-- The windows of the operation do not run backwards, and twice their length is a duration. -/
def InRange : FreshOp → Prop
  | .store _ ttl grace maxStale =>
    0 ≤ grace.toInt ∧ 0 ≤ maxStale.toInt ∧
      ttl.toInt + grace.toInt + maxStale.toInt ≤ windowLimit
  | .setHitForMiss _ d => d.toInt ≤ windowLimit
  | _ => True

instance : (op : FreshOp) → Decidable op.InRange
  | .store _ _ _ _ => inferInstanceAs (Decidable (_ ∧ _ ∧ _))
  | .setHitForMiss _ _ => inferInstanceAs (Decidable (_ ≤ _))
  | .hitForMiss _ | .classify _ | .lookup _ | .staleWithin _ | .sweep | .ban _ | .forget _ =>
    inferInstanceAs (Decidable True)

def window : FreshOp → Option Duration
  | .store _ ttl grace maxStale => some (ttl + grace + maxStale)
  | .setHitForMiss _ d => some d
  | _ => none

theorem InRange.window_le {op : FreshOp} (h : op.InRange) :
    ∀ w ∈ op.window, w.toInt ≤ windowLimit := by
  intro w hw
  cases op with
  | store key ttl grace maxStale =>
    cases hw
    obtain ⟨hg, hm, hsum⟩ := h
    rw [(toInt_stages hg hm hsum).2]
    exact hsum
  | setHitForMiss key d =>
    cases hw
    exact h
  | _ => cases hw

variable (f : Freshness) (now : Instant) (op : FreshOp)

theorem apply_maxGrace : (op.apply f now).maxGrace.toInt =
    match op.window with
    | none => f.maxGrace.toInt
    | some w => max f.maxGrace.toInt w.toInt := by
  cases op with
  | store key ttl grace maxStale | setHitForMiss key d =>
    exact observeWindow_maxGrace_toInt ..
  | hitForMiss key => exact congrArg Int64.toInt (f.hitForMiss_shrinks now key).maxGrace
  | classify key => exact congrArg Int64.toInt (f.classify_shrinks now key).maxGrace
  | lookup key => exact congrArg Int64.toInt (f.lookup_shrinks now key).maxGrace
  | staleWithin key | sweep | ban re | forget key => rfl

variable {op}

theorem apply_bans (hop : ∀ re, op ≠ .ban re) : (op.apply f now).bans = f.bans := by
  obtain hs | ⟨key, e, w, -, -, -, heq⟩ | ⟨re, rfl⟩ := op.apply_cases f now
  · exact hs.bans
  · rw [heq, observeWindow_bans, put_bans]
  · exact absurd rfl (hop re)

theorem mem_apply {e : FreshEntry} (he : e ∈ (op.apply f now).entries.lookup key) :
    e ∈ f.entries.lookup key ∨ e.storedAt = now := by
  obtain hs | ⟨k, e', w, -, hat, -, heq⟩ | ⟨re, rfl⟩ := op.apply_cases f now
  · exact .inl (hs.entries key e he)
  · rw [heq, observeWindow_entries, lookup_put] at he
    split at he
    · cases he
      exact .inr hat
    · exact .inl he
  · exact .inl he

theorem lookup_apply_of_ne {k : Key} (hop : op.key? = some k) (hne : key ≠ k) :
    (op.apply f now).entries.lookup key = f.entries.lookup key := by
  have hdelete : (f.delete k).entries.lookup key = f.entries.lookup key := AList.lookup_erase_ne hne
  cases op with
  | store k ttl grace maxStale =>
    cases hop
    rw [apply, Freshness.store, Freshness.observeWindow_entries, Freshness.lookup_put, if_neg hne]
  | setHitForMiss k d =>
    cases hop
    rw [apply, Freshness.setHitForMiss, Freshness.observeWindow_entries, Freshness.lookup_put,
      if_neg hne]
  | hitForMiss k =>
    cases hop
    rw [apply, Freshness.hitForMiss]
    repeat' split
    all_goals first | rfl | exact hdelete
  | classify k =>
    cases hop
    rw [apply, Freshness.classify, Freshness.classifyPrune]
    repeat' split
    all_goals first | rfl | exact hdelete
  | lookup k =>
    cases hop
    rw [apply, Freshness.lookup]
    repeat' split
    all_goals first | rfl | exact hdelete
  | staleWithin k => rfl
  | forget k =>
    cases hop
    exact hdelete
  | sweep | ban re => cases hop

variable {f} {now}

theorem lookup_apply_stores (f g : Freshness) (hop : op.Stores key) :
    (op.apply f now).entries.lookup key = (op.apply g now).entries.lookup key := by
  cases op with
  | store k ttl grace maxStale =>
    cases hop
    simp only [apply, Freshness.store, Freshness.observeWindow_entries, Freshness.lookup_put,
      if_true]
  | setHitForMiss k d =>
    cases hop
    simp only [apply, Freshness.setHitForMiss, Freshness.observeWindow_entries,
      Freshness.lookup_put, if_true]
  | _ => cases hop

theorem lookup_apply_same {g : Freshness} (h : f.Same g now key) :
    (op.apply f now).entries.lookup key = (op.apply g now).entries.lookup key := by
  cases hop : op.key? with
  | none =>
    cases op with
    | sweep => exact h.sweep
    | ban re => exact h.1
    | _ => cases hop
  | some k =>
    by_cases hne : key = k
    case neg => rw [lookup_apply_of_ne f now hop hne, lookup_apply_of_ne g now hop hne, h.1]
    case pos =>
      subst hne
      cases op with
      | store k ttl grace maxStale =>
        cases hop
        exact lookup_apply_stores f g rfl
      | setHitForMiss k d =>
        cases hop
        exact lookup_apply_stores f g rfl
      | hitForMiss k =>
        cases hop
        exact h.hitForMiss.2
      | classify k =>
        cases hop
        exact h.classify.2
      | lookup k =>
        cases hop
        exact h.lookup.2
      | staleWithin k => exact h.1
      | forget k =>
        cases hop
        simp only [apply, Freshness.forget, Freshness.delete, AList.lookup_erase]
      | sweep | ban re => cases hop

theorem InRange.regular (h : op.InRange) (hop : ∀ re, op ≠ .ban re) : op.Regular f now := by
  cases op with
  | ban re => exact absurd rfl (hop re)
  | store key ttl grace maxStale | setHitForMiss key d => exact h
  | _ => trivial

end FreshOp

namespace Freshness

variable {f g : Freshness} {clock now : Instant} {op : FreshOp} {U : Key → Prop}

/-- How the index `f` of the whole run and the index `g` of the reduced one agree on the keys in
`U`: the entries are the same, and `f` has the bans of `g` after some that strike no live entry. -/
structure Agree (U : Key → Prop) (clock : Instant) (f g : Freshness) : Prop where
  entries : ∀ key, U key → f.entries.lookup key = g.entries.lookup key
  bans : ∃ old, f.bans = old ++ g.bans ∧ ∀ b ∈ old, ∀ key, U key →
    ∀ e ∈ g.entries.lookup key, e.storedAt < b.issuedAt → e.DeadAt clock
  past : ∀ b ∈ f.bans, b.issuedAt ≤ clock
  ordered : g.bans.Pairwise fun b b' => b.issuedAt ≤ b'.issuedAt
  bounded : g.Bounded clock
  wider : g.maxGrace.toInt ≤ f.maxGrace.toInt
  limit : f.maxGrace.toInt ≤ windowLimit

theorem agree_new (t₀ : Instant) : Agree U t₀ new new :=
  ⟨fun _ _ => rfl, ⟨[], rfl, nofun⟩, nofun, .nil, bounded_new t₀, le_rfl, (bounded_new t₀).limit⟩

theorem Agree.same (h : Agree U clock f g) (hle : clock ≤ now) {key : Key} (hU : U key) :
    f.Same g now key := by
  obtain ⟨old, hbans, hold⟩ := h.bans
  refine ⟨h.entries key hU, fun e he => ?_⟩
  by_cases hstrikes : (old.any fun b => decide (e.storedAt < b.issuedAt) && b.re key) = true
  · obtain ⟨b, hb, hmatch⟩ := List.any_eq_true.mp hstrikes
    have hlt : e.storedAt < b.issuedAt := by
      simp only [Bool.and_eq_true, decide_eq_true_eq] at hmatch
      exact hmatch.1
    exact .inl ((hold b hb key hU e he hlt).mono hle)
  · rw [Bool.not_eq_true] at hstrikes
    right
    rw [banned_eq_any, banned_eq_any, hbans, any_append, hstrikes, Bool.false_or]

theorem Agree.limit_apply (h : Agree U clock f g) (hr : op.InRange) :
    (op.apply f now).maxGrace.toInt ≤ windowLimit := by
  rw [op.apply_maxGrace f now]
  split
  · exact h.limit
  case h_2 w hw => exact max_le h.limit (hr.window_le w hw)

theorem Agree.later (h : Agree U clock f g) (hle : clock ≤ now) : Agree U now f g := by
  obtain ⟨old, hbans, hold⟩ := h.bans
  exact ⟨h.entries, ⟨old, hbans, fun b hb key hU e he hlt => (hold b hb key hU e he hlt).mono hle⟩,
    fun b hb => (h.past b hb).trans hle, h.ordered, h.bounded.shrink (.refl g) hle, h.wider, h.limit⟩

theorem Agree.drop (h : Agree U clock f g) (hle : clock ≤ now) (hr : op.InRange) {k : Key}
    (hop : op.key? = some k) (hk : ¬ U k) : Agree U now (op.apply f now) g := by
  have hnoban : ∀ re, op ≠ .ban re := by
    rintro re rfl
    cases hop
  have hbans := apply_bans f now hnoban
  have hlater := h.later hle
  refine ⟨fun key hU => ?_, hbans ▸ hlater.bans, hbans ▸ hlater.past, h.ordered, hlater.bounded, ?_, ?_⟩
  · rw [lookup_apply_of_ne f now hop fun heq => hk (heq ▸ hU)]
    exact h.entries key hU
  · rw [op.apply_maxGrace f now]
    split
    · exact h.wider
    · exact h.wider.trans (le_max_left _ _)
  · exact h.limit_apply hr

theorem filter_later {l : List BanEntry} (hl : l.Pairwise fun b b' => b.issuedAt ≤ b'.issuedAt)
    {a c : Instant} (hac : a ≤ c) :
    ∃ mid, l.filter (fun b => decide (a < b.issuedAt)) =
        mid ++ l.filter (fun b => decide (c < b.issuedAt)) ∧
      ∀ b ∈ mid, b ∈ l ∧ ¬ c < b.issuedAt := by
  induction l with
  | nil => exact ⟨[], rfl, nofun⟩
  | cons b l ih =>
    obtain ⟨hb, hl⟩ := pairwise_cons.mp hl
    by_cases hc : c < b.issuedAt
    · -- all that follows is kept by both
      have hall {t : Instant} (ht : t < b.issuedAt) :
          (b :: l).filter (fun b => decide (t < b.issuedAt)) = b :: l := by
        refine filter_eq_self.mpr fun b' hb' => decide_eq_true ?_
        obtain rfl | hb' := mem_cons.mp hb'
        · exact ht
        · exact lt_of_lt_of_le ht (hb b' hb')
      exact ⟨[], by rw [hall hc, hall (lt_of_le_of_lt hac hc), nil_append], nofun⟩
    · obtain ⟨mid, hmid, hold⟩ := ih hl
      have hold' : ∀ b' ∈ mid, b' ∈ b :: l ∧ ¬ c < b'.issuedAt := fun b' hb' =>
        ⟨mem_cons_of_mem b (hold b' hb').1, (hold b' hb').2⟩
      by_cases ha : a < b.issuedAt
      · refine ⟨b :: mid, ?_, fun b' hb' => ?_⟩
        · rw [filter_cons, filter_cons, if_pos (decide_eq_true ha), if_neg (by simpa using hc),
            hmid, cons_append]
        · obtain rfl | hb' := mem_cons.mp hb'
          · exact ⟨mem_cons_self, hc⟩
          · exact hold' b' hb'
      · refine ⟨mid, ?_, hold'⟩
        rw [filter_cons, filter_cons, if_neg (by simpa using ha), if_neg (by simpa using hc), hmid]

theorem rtake_append_tail {α : Type*} (l m : List α) (n : Nat) :
    ∃ l', (l ++ m).rtake n = l' ++ m.rtake n ∧ ∀ a ∈ l', a ∈ l := by
  refine ⟨l.drop (l.length + m.length - n), ?_, fun a ha => mem_of_mem_drop ha⟩
  rw [rtake, drop_append, length_append]
  congr 2
  omega

theorem Agree.ban (h : Agree U clock f g) (hle : clock ≤ now) (re : Key → Bool) :
    Agree U now (f.ban now re).1 (g.ban now re).1 := by
  obtain ⟨old, hbans, hold⟩ := h.bans
  have hcuts : now.add (-2 * f.maxGrace) ≤ now.add (-2 * g.maxGrace) := by
    have hf := toInt_neg_two_mul (h.bounded.nonneg.trans h.wider) h.limit
    have hg := toInt_neg_two_mul h.bounded.nonneg h.bounded.limit
    have hwider := h.wider
    rw [Instant.add, Instant.add]
    linarith
  obtain ⟨mid, hmid, hpruned⟩ := filter_later h.ordered hcuts
  have hkept : f.keptBans now ++ [⟨re, now⟩] =
      (old.filter (fun b => decide (now.add (-2 * f.maxGrace) < b.issuedAt)) ++ mid) ++
        (g.keptBans now ++ [⟨re, now⟩]) := by
    rw [keptBans, keptBans, hbans, filter_append, hmid]
    simp
  obtain ⟨old', hcapped, hsub⟩ := rtake_append_tail
    (old.filter (fun b => decide (now.add (-2 * f.maxGrace) < b.issuedAt)) ++ mid)
    (g.keptBans now ++ [⟨re, now⟩]) maxBans
  have hbounded : (apply g now (.ban re)).Bounded now :=
    h.bounded.apply hle fun hop => absurd rfl (hop re)
  refine ⟨h.entries, ⟨old', ?_, ?_⟩, ?_, ?_, hbounded, h.wider, h.limit⟩
  · rw [ban_bans, ban_bans, hkept, hcapped]
  · intro b hb key hU e he hlt
    obtain hb | hb := mem_append.mp (hsub b hb)
    · exact (hold b (mem_of_mem_filter hb) key hU e he hlt).mono hle
    · exact h.bounded.dead_of_pruned (hpruned b hb).2 he hlt
  · intro b hb
    rw [ban_bans] at hb
    obtain hb | hb := mem_append.mp (mem_of_mem_drop hb)
    · exact (h.past b (mem_of_mem_filter hb)).trans hle
    · rw [mem_singleton.mp hb]
  · rw [ban_bans]
    refine List.Pairwise.sublist (drop_sublist _ _) (pairwise_append.mpr ⟨?_, ?_, ?_⟩)
    · exact h.ordered.sublist filter_sublist
    · exact pairwise_singleton _ _
    · intro b hb b' hb'
      rw [mem_singleton.mp hb']
      have hg : b ∈ f.bans := by
        rw [hbans]
        exact mem_append_right old (mem_of_mem_filter hb)
      exact (h.past b hg).trans hle

theorem Agree.keep (h : Agree U clock f g) (hle : clock ≤ now) (hr : op.InRange) :
    Agree U now (op.apply f now) (op.apply g now) := by
  by_cases hop : ∃ re, op = .ban re
  · obtain ⟨re, rfl⟩ := hop
    exact h.ban hle re
  simp only [not_exists] at hop
  have hf := apply_bans f now hop
  have hg := apply_bans g now hop
  obtain ⟨old, hbans, hold⟩ := h.bans
  refine ⟨fun key hU => lookup_apply_same (h.same hle hU), ⟨old, ?_, ?_⟩,
    hf ▸ (h.later hle).past, hg ▸ h.ordered, h.bounded.apply hle hr.regular, ?_, h.limit_apply hr⟩
  · rw [hf, hg, hbans]
  · intro b hb key hU e he hlt
    obtain hthere | hnew := mem_apply g now he
    · exact (hold b hb key hU e hthere hlt).mono hle
    · -- an entry of this instant is struck by no ban of the past
      have hpast : b.issuedAt ≤ clock := h.past b (by rw [hbans]; exact mem_append_left _ hb)
      rw [hnew] at hlt
      exact absurd hlt (not_lt.mpr (hpast.trans hle))
  · rw [op.apply_maxGrace f now, op.apply_maxGrace g now]
    split
    · exact h.wider
    · exact max_le_max_right _ h.wider

end Freshness

end Cadish
