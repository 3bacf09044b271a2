import Cadish.Lib.Interference
import Cadish.Server.Agree
import Cadish.Server.Coalesce

/-!
# Sites that share a handler

Each site has its own store, but the freshness index, the ban list, the coalescer and the background
refreshes are one per handler. Site `A` shows at site `B` by a shared key, a regex ban, the last
refresh slot, a window that overflows, or where the grace of `B` is negative (`not_sites_isolated`).
The rest is isolated (`sites_isolated`): the longest window of `A` only keeps bans that strike dead
entries.
-/

namespace Cadish

open Transition Interference Refreshes

/-! ## The coalescer -/

namespace Coalescer

variable {c d : Coalescer} {U : Key → Prop} {site : Nat}

/-- Both coalescers have the same to tell the requests of the site, which are for keys in `U`. -/
structure Agree (U : Key → Prop) (site : Nat) (c d : Coalescer) : Prop where
  calls : ∀ key, U key → c.calls.lookup key = d.calls.lookup key
  keyed : ∀ key, ∀ call ∈ d.calls.lookup key, call.key = key
  succeeded : ∀ call : Call, U call.key → c.succeeded.lookup call = d.succeeded.lookup call
  waits : ∀ request, c.waits.lookup (site, request) = d.waits.lookup (site, request)
  waited : ∀ request, ∀ call ∈ d.waits.lookup (site, request), U call.key

theorem agree_new : Agree U site {} {} :=
  ⟨fun _ _ => rfl, nofun, fun _ _ => rfl, fun _ => rfl, nofun⟩

theorem enter_calls_of_ne (c : Coalescer) {call : Call} {key : Key} (h : key ≠ call.key) :
    (c.enter call).1.calls.lookup key = c.calls.lookup key := by
  rw [enter]
  split
  · rfl
  · exact AList.lookup_insert_ne h

theorem enter_waits_of_ne (c : Coalescer) {call : Call} (h : call.site ≠ site) (request : Nat) :
    (c.enter call).1.waits.lookup (site, request) = c.waits.lookup (site, request) := by
  rw [enter]
  split
  · exact AList.lookup_insert_ne fun heq => h (congrArg Prod.fst heq).symm
  · rfl

theorem enter_succeeded (c : Coalescer) (call : Call) :
    (c.enter call).1.succeeded = c.succeeded := by
  rw [enter]
  split <;> rfl

theorem enter_keyed (hd : ∀ key, ∀ call ∈ d.calls.lookup key, call.key = key) (call : Call) :
    ∀ key, ∀ call' ∈ (d.enter call).1.calls.lookup key, call'.key = key := by
  intro key call' h
  rw [enter] at h
  split at h
  · exact hd key call' h
  rw [FinMap.lookup_insert_ite] at h
  split at h
  case isTrue hkey =>
    cases h
    exact hkey.symm
  case isFalse => exact hd key call' h

theorem Agree.enter (h : Agree U site c d) (call : Call) (hU : call.site = site → U call.key) :
    Agree U site (c.enter call).1 (d.enter call).1 ∧
      (call.site = site → (c.enter call).2 = (d.enter call).2) := by
  by_cases hkey : U call.key
  · have hsame := h.calls call.key hkey
    rcases hcall : d.calls.lookup call.key with _ | existing
    · have hc : c.enter call = ({ c with calls := c.calls.insert call.key call }, true) := by
        rw [Coalescer.enter, hsame, hcall]
      have hd : d.enter call = ({ d with calls := d.calls.insert call.key call }, true) := by
        rw [Coalescer.enter, hcall]
      have hk := enter_keyed h.keyed call
      rw [hd] at hk
      rw [hc, hd]
      refine ⟨⟨fun key hU => ?_, hk, h.succeeded, h.waits, h.waited⟩, fun _ => rfl⟩
      simp only [FinMap.lookup_insert_ite, h.calls key hU]
    · have hc : c.enter call =
          ({ c with waits := c.waits.insert (call.site, call.request) existing }, false) := by
        rw [Coalescer.enter, hsame, hcall]
      have hd : d.enter call =
          ({ d with waits := d.waits.insert (call.site, call.request) existing }, false) := by
        rw [Coalescer.enter, hcall]
      rw [hc, hd]
      refine ⟨⟨h.calls, h.keyed, h.succeeded, fun request => ?_, fun request call' hcall' => ?_⟩,
        fun _ => rfl⟩
      · simp only [FinMap.lookup_insert_ite, h.waits request]
      · rw [FinMap.lookup_insert_ite] at hcall'
        split at hcall'
        · cases hcall'
          rw [h.keyed call.key existing hcall]
          exact hkey
        · exact h.waited request call' hcall'
  · have hsite : call.site ≠ site := fun heq => hkey (hU heq)
    have hne {key : Key} (hUkey : U key) : key ≠ call.key := fun heq => hkey (heq ▸ hUkey)
    refine ⟨⟨fun key hUkey => ?_, enter_keyed h.keyed call, fun call' hU' => ?_, fun request => ?_,
      fun request call' hcall' => ?_⟩, fun heq => absurd heq hsite⟩
    · rw [enter_calls_of_ne c (hne hUkey), enter_calls_of_ne d (hne hUkey), h.calls key hUkey]
    · rw [enter_succeeded, enter_succeeded, h.succeeded call' hU']
    · rw [enter_waits_of_ne c hsite, enter_waits_of_ne d hsite, h.waits request]
    · rw [enter_waits_of_ne d hsite] at hcall'
      exact h.waited request call' hcall'

theorem Agree.enter_drop (h : Agree U site c d) {call : Call} (hsite : call.site ≠ site)
    (hkey : ¬ U call.key) : Agree U site (c.enter call).1 d := by
  refine ⟨fun key hU => ?_, h.keyed, fun call' hU => ?_, fun request => ?_, h.waited⟩
  · rw [enter_calls_of_ne c fun heq => hkey (heq ▸ hU), h.calls key hU]
  · rw [enter_succeeded, h.succeeded call' hU]
  · rw [enter_waits_of_ne c hsite, h.waits request]

theorem finish_calls_of_ne (c : Coalescer) {call : Call} {key : Key} (ok : Bool)
    (h : key ≠ call.key) : (c.finish call ok).calls.lookup key = c.calls.lookup key := by
  rw [finish]
  split
  · exact AList.lookup_erase_ne h
  · rfl

theorem Agree.finish (h : Agree U site c d) (call : Call) (ok : Bool) :
    Agree U site (c.finish call ok) (d.finish call ok) := by
  refine ⟨fun key hU => ?_, fun key call' hcall' => ?_, fun call' hU => ?_, h.waits, h.waited⟩
  · by_cases hkey : key = call.key
    · subst hkey
      simp only [Coalescer.finish, h.calls call.key hU]
      split
      · simp
      · exact h.calls call.key hU
    · rw [finish_calls_of_ne c ok hkey, finish_calls_of_ne d ok hkey, h.calls key hU]
  · refine h.keyed key call' ?_
    simp only [Coalescer.finish] at hcall'
    split at hcall'
    · exact FinMap.mem_lookup_erase hcall'
    · exact hcall'
  · simp only [Coalescer.finish, FinMap.lookup_insert_ite, h.succeeded call' hU]

theorem Agree.finish_drop (h : Agree U site c d) {call : Call} (hkey : ¬ U call.key) (ok : Bool) :
    Agree U site (c.finish call ok) d := by
  refine ⟨fun key hU => ?_, h.keyed, fun call' hU => ?_, h.waits, h.waited⟩
  · rw [finish_calls_of_ne c ok fun heq => hkey (heq ▸ hU), h.calls key hU]
  · have hne : call' ≠ call := fun heq => hkey (heq ▸ hU)
    simp only [Coalescer.finish, AList.lookup_insert_ne hne]
    exact h.succeeded call' hU

theorem Agree.told (h : Agree U site c d) (request : Nat) :
    c.told site request = d.told site request := by
  rw [Coalescer.told, Coalescer.told, h.waits request]
  rcases hw : d.waits.lookup (site, request) with _ | call
  · rfl
  · exact h.succeeded call (h.waited request call hw)

end Coalescer

/-! ## The background refreshes -/

namespace Refreshes

variable {r q : Refreshes} {U : Key → Prop}

def Agree (U : Key → Prop) (r q : Refreshes) : Prop :=
  ∀ key, U key → (key ∈ r.inFlight ↔ key ∈ q.inFlight)

theorem mem_begin (r : Refreshes) (key k : Key) :
    k ∈ (r.begin key).1.inFlight ↔ k = key ∨ k ∈ r.inFlight := by
  rw [begin]
  split
  case isTrue h =>
    constructor
    · exact .inr
    · rintro (rfl | hk)
      · exact h
      · exact hk
  case isFalse => exact Finset.mem_insert

theorem mem_finish (r : Refreshes) (key k : Key) :
    k ∈ (r.finish key).inFlight ↔ k ≠ key ∧ k ∈ r.inFlight := Finset.mem_erase

theorem mem_acquire_of_ne (r : Refreshes) {key k : Key} (h : k ≠ key) :
    k ∈ (r.acquire key).1.inFlight ↔ k ∈ r.inFlight := by
  rw [acquire]
  split
  · rfl
  · rw [mem_finish, and_iff_right h]

theorem acquire_of_room (h : r.slots < maxConcurrentBgRevalidations) (key : Key) :
    r.acquire key = ({ r with slots := r.slots + 1 }, true) := if_pos h

theorem Agree.begin (h : Agree U r q) (key : Key) :
    Agree U (r.begin key).1 (q.begin key).1 ∧ (U key → (r.begin key).2 = (q.begin key).2) := by
  refine ⟨fun k hk => ?_, fun hU => ?_⟩
  · rw [mem_begin, mem_begin, h k hk]
  · rw [Refreshes.begin, Refreshes.begin]
    by_cases hmem : key ∈ q.inFlight
    · rw [if_pos hmem, if_pos ((h key hU).mpr hmem)]
    · rw [if_neg hmem, if_neg fun hr => hmem ((h key hU).mp hr)]

theorem Agree.finish (h : Agree U r q) (key : Key) : Agree U (r.finish key) (q.finish key) :=
  fun k hk => by rw [mem_finish, mem_finish, h k hk]

theorem Agree.acquire (h : Agree U r q) {key : Key}
    (hr : U key → r.slots < maxConcurrentBgRevalidations)
    (hq : U key → q.slots < maxConcurrentBgRevalidations) :
    Agree U (r.acquire key).1 (q.acquire key).1 ∧ (U key → (r.acquire key).2 = (q.acquire key).2) := by
  by_cases hU : U key
  · rw [acquire_of_room (hr hU), acquire_of_room (hq hU)]
    exact ⟨h, fun _ => rfl⟩
  · refine ⟨fun k hk => ?_, fun hU' => absurd hU' hU⟩
    have hne : k ≠ key := fun heq => hU (heq ▸ hk)
    rw [mem_acquire_of_ne r hne, mem_acquire_of_ne q hne, h k hk]

end Refreshes

/-! ## The handler -/

structure Shared where
  clock : Instant
  fresh : Freshness := .new
  coalesce : Coalescer := {}
  refreshes : Refreshes := {}

inductive SiteOp where
  | index (op : FreshOp)
  | storedAt (key : Key)
  | lifetime (key : Key)
  | enter (request : Nat) (key : Key)
  | finish (request : Nat) (key : Key) (succeeded : Bool)
  | wait (request : Nat) (key : Key)
  | beginRefresh (key : Key)
  | acquire (key : Key)
  | endRefresh (key : Key)
  | release (key : Key)

/-- The key of an operation; a sweep and a ban have none. -/
def SiteOp.key? : SiteOp → Option Key
  | .index op => op.key?
  | .storedAt key | .lifetime key | .enter _ key | .finish _ key _ | .wait _ key
  | .beginRefresh key | .acquire key | .endRefresh key | .release key => some key

/-- An operation for a request of a site, at an instant. The passes of the sweeper are filed under
any site. -/
structure Action where
  site : Nat
  now : Instant
  op : SiteOp

inductive SiteOutcome where
  | classified (state : FreshState) (hitForMiss : Bool)
  | answer (b : Bool)
  | storedAt (t : Option Instant)
  | lifetime (d : Option Int)
  | told (succeeded : Option Bool)
  | silent
deriving DecidableEq

namespace Shared

/-- What an operation on the index says. The number of entries that a ban reports to have matched is
left out: it is over the entries of all sites. -/
def indexOutcome (f : Freshness) (now : Instant) : FreshOp → SiteOutcome
  | .classify key => .classified (f.classify now key).2.1 (f.classify now key).2.2
  | .lookup key => .classified (f.lookup now key).2 false
  | .hitForMiss key => .answer (f.hitForMiss now key).2
  | .staleWithin key => .answer (f.staleWithin now key)
  | .store _ _ _ _ | .setHitForMiss _ _ | .sweep | .ban _ | .forget _ => .silent

def step (s : Shared) (a : Action) : Shared × SiteOutcome :=
  let s := { s with clock := a.now }
  match a.op with
  | .index op => ({ s with fresh := op.apply s.fresh a.now }, indexOutcome s.fresh a.now op)
  | .storedAt key => (s, .storedAt (s.fresh.storedAt key))
  | .lifetime key => (s, .lifetime (s.fresh.lifetime key))
  | .enter request key =>
    let (c, winner) := s.coalesce.enter ⟨a.site, request, key⟩
    ({ s with coalesce := c }, .answer winner)
  | .finish request key succeeded =>
    ({ s with coalesce := s.coalesce.finish ⟨a.site, request, key⟩ succeeded }, .silent)
  | .wait request _ => (s, .told (s.coalesce.told a.site request))
  | .beginRefresh key =>
    let (r, begun) := s.refreshes.begin key
    ({ s with refreshes := r }, .answer begun)
  | .acquire key =>
    let (r, taken) := s.refreshes.acquire key
    ({ s with refreshes := r }, .answer taken)
  | .endRefresh key => ({ s with refreshes := s.refreshes.finish key }, .silent)
  | .release _ => ({ s with refreshes := s.refreshes.release }, .silent)

def start (t₀ : Instant) : Shared := { clock := t₀ }

variable (site : Nat) (l : List Action)

def UsedBy (key : Key) : Prop :=
  ∃ a ∈ l, a.site = site ∧ a.op.key? = some key

def Foreign (a : Action) : Prop :=
  a.site ≠ site ∧ ∃ key, a.op.key? = some key ∧ ¬ UsedBy site l key

instance (site : Nat) (l : List Action) (key : Key) : Decidable (UsedBy site l key) :=
  inferInstanceAs (Decidable (∃ a ∈ l, _ ∧ _))

def HasSlot (s : Shared) (a : Action) : Prop :=
  match a.op with
  | .acquire key => UsedBy site l key → s.refreshes.slots < maxConcurrentBgRevalidations
  | _ => True

/-- The clock does not go back, the windows are in range, and a refresh of a key that the site
uses finds a slot. -/
def ActionOk (s : Shared) (a : Action) : Prop :=
  s.clock ≤ a.now ∧ (match a.op with | .index op => op.InRange | _ => True) ∧ HasSlot site l s a

instance (site : Nat) (l : List Action) (s : Shared) : (a : Action) → Decidable (HasSlot site l s a)
  | ⟨_, _, .acquire _⟩ => inferInstanceAs (Decidable (_ → _))
  | ⟨_, _, .index _⟩ | ⟨_, _, .storedAt _⟩ | ⟨_, _, .lifetime _⟩ | ⟨_, _, .enter _ _⟩
  | ⟨_, _, .finish _ _ _⟩ | ⟨_, _, .wait _ _⟩ | ⟨_, _, .beginRefresh _⟩ | ⟨_, _, .endRefresh _⟩
  | ⟨_, _, .release _⟩ => inferInstanceAs (Decidable True)

instance (site : Nat) (l : List Action) (s : Shared) : (a : Action) → Decidable (ActionOk site l s a)
  | ⟨_, _, .index _⟩ => inferInstanceAs (Decidable (_ ∧ FreshOp.InRange _ ∧ HasSlot _ _ _ _))
  | ⟨_, _, .storedAt _⟩ | ⟨_, _, .lifetime _⟩ | ⟨_, _, .enter _ _⟩
  | ⟨_, _, .finish _ _ _⟩ | ⟨_, _, .wait _ _⟩ | ⟨_, _, .beginRefresh _⟩ | ⟨_, _, .acquire _⟩
  | ⟨_, _, .endRefresh _⟩ | ⟨_, _, .release _⟩ =>
    inferInstanceAs (Decidable (_ ∧ True ∧ HasSlot _ _ _ _))

def seen (t₀ : Instant) (l : List Action) : List SiteOutcome :=
  outcomes step (fun a => a.site == site) (start t₀) l

/-! ## Isolation -/

variable {U : Key → Prop} {site : Nat} {s t : Shared}

/-- The whole run and the reduced one agree on the keys in `U` and the requests of the site. -/
structure Agree (U : Key → Prop) (site : Nat) (s t : Shared) : Prop where
  fresh : Freshness.Agree U s.clock s.fresh t.fresh
  coalesce : Coalescer.Agree U site s.coalesce t.coalesce
  refreshes : Refreshes.Agree U s.refreshes t.refreshes

theorem agree_start (t₀ : Instant) : Agree U site (start t₀) (start t₀) :=
  ⟨Freshness.agree_new t₀, Coalescer.agree_new, fun _ _ => Iff.rfl⟩

theorem indexOutcome_eq {f g : Freshness} {clock now : Instant} {op : FreshOp}
    (h : Freshness.Agree U clock f g) (hle : clock ≤ now) (hU : ∀ key ∈ op.key?, U key) :
    indexOutcome f now op = indexOutcome g now op := by
  cases op with
  | classify key =>
    have hsame := (h.same hle (hU key rfl)).classify.1
    simp only [indexOutcome, hsame]
  | lookup key =>
    have hsame := (h.same hle (hU key rfl)).lookup.1
    simp only [indexOutcome, hsame]
  | hitForMiss key =>
    have hsame := (h.same hle (hU key rfl)).hitForMiss.1
    simp only [indexOutcome, hsame]
  | staleWithin key =>
    have hsame := (h.same hle (hU key rfl)).staleWithin
    simp only [indexOutcome, hsame]
  | _ => rfl

theorem Agree.keep (h : Agree U site s t) {a : Action} (hle : s.clock ≤ a.now)
    (hrange : ∀ op, a.op = .index op → op.InRange)
    (hs : ∀ key, a.op = .acquire key → U key → s.refreshes.slots < maxConcurrentBgRevalidations)
    (ht : ∀ key, a.op = .acquire key → U key → t.refreshes.slots < maxConcurrentBgRevalidations)
    (hU : a.site = site → ∀ key ∈ a.op.key?, U key) :
    Agree U site (next step s a) (next step t a) ∧
      ((a.site == site) = true → (step s a).2 = (step t a).2) := by
  obtain ⟨i, now, op⟩ := a
  have hlater := h.fresh.later hle
  rw [beq_iff_eq]
  cases op with
  | index op =>
    refine ⟨⟨h.fresh.keep hle (hrange op rfl), h.coalesce, h.refreshes⟩, fun hi => ?_⟩
    exact indexOutcome_eq h.fresh hle (hU hi)
  | storedAt key =>
    refine ⟨⟨hlater, h.coalesce, h.refreshes⟩, fun hi => ?_⟩
    simp only [step, Freshness.storedAt, h.fresh.entries key (hU hi key rfl)]
  | lifetime key =>
    refine ⟨⟨hlater, h.coalesce, h.refreshes⟩, fun hi => ?_⟩
    simp only [step, Freshness.lifetime, h.fresh.entries key (hU hi key rfl)]
  | enter request key =>
    obtain ⟨hagree, hsame⟩ := h.coalesce.enter ⟨i, request, key⟩ fun hi => hU hi key rfl
    exact ⟨⟨hlater, hagree, h.refreshes⟩, fun hi => congrArg SiteOutcome.answer (hsame hi)⟩
  | finish request key succeeded =>
    exact ⟨⟨hlater, h.coalesce.finish ⟨i, request, key⟩ succeeded, h.refreshes⟩, fun _ => rfl⟩
  | wait request key =>
    refine ⟨⟨hlater, h.coalesce, h.refreshes⟩, ?_⟩
    rintro rfl
    exact congrArg SiteOutcome.told (h.coalesce.told request)
  | beginRefresh key =>
    obtain ⟨hagree, hsame⟩ := h.refreshes.begin key
    exact ⟨⟨hlater, h.coalesce, hagree⟩,
      fun hi => congrArg SiteOutcome.answer (hsame (hU hi key rfl))⟩
  | acquire key =>
    obtain ⟨hagree, hsame⟩ := h.refreshes.acquire (hs key rfl) (ht key rfl)
    exact ⟨⟨hlater, h.coalesce, hagree⟩,
      fun hi => congrArg SiteOutcome.answer (hsame (hU hi key rfl))⟩
  | endRefresh key => exact ⟨⟨hlater, h.coalesce, h.refreshes.finish key⟩, fun _ => rfl⟩
  | release key => exact ⟨⟨hlater, h.coalesce, h.refreshes⟩, fun _ => rfl⟩

theorem Agree.drop (h : Agree U site s t) {a : Action} (hle : s.clock ≤ a.now)
    (hrange : ∀ op, a.op = .index op → op.InRange) (hsite : a.site ≠ site) {k : Key}
    (hop : a.op.key? = some k) (hk : ¬ U k) : Agree U site (next step s a) t := by
  obtain ⟨i, now, op⟩ := a
  have hlater := h.fresh.later hle
  -- only the key of the action is touched
  have hne {key : Key} (hU : U key) : key ≠ k := fun heq => hk (heq ▸ hU)
  cases op with
  | index op => exact ⟨h.fresh.drop hle (hrange op rfl) hop hk, h.coalesce, h.refreshes⟩
  | storedAt key | lifetime key | wait request key | release key =>
    exact ⟨hlater, h.coalesce, h.refreshes⟩
  | enter request key =>
    cases hop
    exact ⟨hlater, h.coalesce.enter_drop hsite hk, h.refreshes⟩
  | finish request key succeeded =>
    cases hop
    exact ⟨hlater, h.coalesce.finish_drop hk succeeded, h.refreshes⟩
  | beginRefresh key =>
    cases hop
    refine ⟨hlater, h.coalesce, fun key' hU => ?_⟩
    rw [← h.refreshes key' hU]
    exact (mem_begin _ _ _).trans (or_iff_right (hne hU))
  | acquire key =>
    cases hop
    refine ⟨hlater, h.coalesce, fun key' hU => ?_⟩
    rw [← h.refreshes key' hU]
    exact mem_acquire_of_ne _ (hne hU)
  | endRefresh key =>
    cases hop
    refine ⟨hlater, h.coalesce, fun key' hU => ?_⟩
    rw [← h.refreshes key' hU]
    exact (mem_finish _ _ _).trans (and_iff_right (hne hU))

/-- **Site isolation.** Leaving operations of other sites, for keys that the site does not use, out
of a run changes nothing that the requests of the site are told. Bans and sweeps are in both runs,
the windows of no site run backwards or overflow, and a refresh for the site finds a slot with and
without the others. -/
theorem sites_isolated (site : Nat) (t₀ : Instant) (l l' : List Action)
    (hdrops : Drops (Foreign site l) l l')
    (hl : Meets (next step) (ActionOk site l) (start t₀) l)
    (hl' : Meets (next step) (HasSlot site l) (start t₀) l') :
    seen site t₀ l = seen site t₀ l' := by
  have hused : ∀ a ∈ l, a.site = site → ∀ key ∈ a.op.key?, UsedBy site l key :=
    fun a ha hsite key hkey => ⟨a, ha, hsite, hkey⟩
  have hstart : Agree (UsedBy site l) site (start t₀) (start t₀) := agree_start t₀
  refine outcomes_eq (fun s t a h hs ht => ?_) (fun s t a h hs hforeign => ?_) hstart
    hdrops (hl.and_mem hused) hl'
  · obtain ⟨⟨hle, hrange, hslot⟩, hU⟩ := hs
    exact h.keep hle (fun op hop => by rwa [hop] at hrange)
      (fun key hop => by rwa [HasSlot, hop] at hslot) (fun key hop => by rwa [HasSlot, hop] at ht) hU
  · obtain ⟨⟨hle, hrange, -⟩, -⟩ := hs
    obtain ⟨hsite, key, hop, hkey⟩ := hforeign
    exact ⟨h.drop hle (fun op hop => by rwa [hop] at hrange) hsite hop hkey, beq_false_of_ne hsite⟩

theorem sites_isolated_page :
    let page : Key := lit "b/page"
    let own : List Action :=
      [⟨1, 20, .index (.store page (60 * second) 0 0)⟩, ⟨1, 30, .index (.ban (· == page))⟩,
        ⟨1, 50, .index (.classify page)⟩, ⟨1, 50, .enter 1 page⟩]
    let all : List Action :=
      ⟨0, 10, .index (.store (lit "a/page") (3600 * second) 0 0)⟩ :: own
    seen 1 0 all = seen 1 0 own ∧
      seen 1 0 own = [.silent, .silent, .classified .miss false, .answer true] := by
  refine ⟨sites_isolated 1 0 _ _ (.drop ⟨by decide, lit "a/page", rfl, by decide⟩
    (.keep _ (.keep _ (.keep _ (.keep _ .nil))))) (by decide) (by decide), ?_⟩
  decide

/-- **What is not isolated.** An operation for a request of site 0 changes what site 1 is told:
by the use of a key of site 1, in the index, the coalescer and the refreshes; by a regex ban; by
taking all slots; by a window of 200 years, after which a purged page of site 1 is fresh again; and
by a window of ten hours, without which a purged page of site 1 with a negative grace would be. -/
theorem not_sites_isolated :
    let page : Key := lit "page"
    let hour : Duration := 3600 * second
    let a (now : Instant) (op : SiteOp) : Action := ⟨0, now, op⟩
    let b (now : Instant) (op : SiteOp) : Action := ⟨1, now, op⟩
    let uses (asks : Instant → SiteOp → Action) (now : Instant) : List Action :=
      [asks now (.index (.classify page)), asks now (.enter 1 page), asks now (.beginRefresh page)]
    let stored : Action := b 1 (.index (.store page hour 0 0))
    let purged : Action := b 2 (.index (.ban (· == page)))
    let read : List Action :=
      [b 4 (.index (.ban (· == lit "other"))), b 5 (.index (.classify page))]
    let slots : List Action := (List.range maxConcurrentBgRevalidations).flatMap fun n =>
      [a 0 (.beginRefresh [n.toUInt8]), a 0 (.acquire [n.toUInt8])]
    seen 1 0 (a 0 (.index (.store page hour 0 0)) :: uses a 1 ++ uses b 2)
        = [.classified .fresh false, .answer false, .answer false] ∧
      seen 1 0 (uses b 2) = [.classified .miss false, .answer true, .answer true] ∧
    seen 1 0 (stored :: a 3 (.index (.ban fun _ => true)) :: read)
        = [.silent, .silent, .classified .miss false] ∧
      seen 1 0 (stored :: read) = [.silent, .silent, .classified .fresh false] ∧
    seen 1 0 (slots ++ [b 1 (.acquire page)]) = [.answer false] ∧
      seen 1 0 [b 1 (.acquire page)] = [.answer true] ∧
    seen 1 0 (stored :: purged :: a 3 (.index (.store (lit "a") (200 * 365 * 24 * hour) 0 0)) :: read)
        = [.silent, .silent, .silent, .classified .fresh false] ∧
      seen 1 0 (stored :: purged :: read) = [.silent, .silent, .silent, .classified .miss false] ∧
    seen 1 0 (a 0 (.index (.store (lit "a") (10 * hour) 0 0)) ::
        b 1 (.index (.store page hour (-hour) 0)) :: purged :: read)
        = [.silent, .silent, .silent, .classified .miss false] ∧
      seen 1 0 (b 1 (.index (.store page hour (-hour) 0)) :: purged :: read)
        = [.silent, .silent, .silent, .classified .fresh false] := by
  decide +kernel

end Shared

end Cadish
