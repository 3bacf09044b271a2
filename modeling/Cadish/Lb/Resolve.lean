import Cadish.Lb.Ring
import Cadish.Lib.FinMap
import Cadish.Lib.Run

/-!
# The backends of a pool

After each round of resolution the backends are brought in line: known ones stay the objects they
are, those of a target that failed are kept. **A pool holds what each target was last resolved to**
(`resolve_converges`): the texts that name the endpoints of different targets differ.
-/

namespace Cadish.Lb

open List Option

/-- The text of a resolved address: that of an IP, with a port for `k8s` targets. -/
structure Address where
  text : Str
  plain : Str.byte '|' ∉ text

/-- `Target`: a static one, or one that is resolved (`dns`, `k8s`), which begins with its scheme. -/
structure Target where
  raw : Str
  dynamic : Bool
  schemed : dynamic = true → raw.head? ≠ some (Str.byte 's')

structure Endpoint where
  id : Str
  baseURL : Str
  target : Str
deriving DecidableEq

/-- `backend`: an endpoint, and the round in which the object was made. -/
structure Backend where
  made : Nat
  endpoint : Endpoint
deriving DecidableEq

/-- The pool: `byID`, whose values are the list of backends in some order. -/
structure Upstream where
  rounds : Nat := 0
  byID : FinMap Str Backend := ∅

abbrev Round := Target → Option (List Address)

section Resolve

variable (baseURL : Target → Str → Str) (targets : List Target)

variable (u : Upstream) (r : Round) (t : Target)

def Target.endpoint (a : Str) : Endpoint :=
  ⟨if t.dynamic then t.raw ++ lit "|" ++ a else lit "static|" ++ t.raw,
    baseURL t (if t.dynamic then a else []), t.raw⟩

def resolveTarget : Option (List Endpoint) :=
  if t.dynamic then (r t).map fun as => as.map fun a => t.endpoint baseURL a.text
  else some [t.endpoint baseURL []]

def Upstream.reconcile (desired : FinMap Str Endpoint) (failed : List Str) :
    Upstream where
  rounds := u.rounds + 1
  byID := (desired.mapVal fun id e => (u.byID.lookup id).getD ⟨u.rounds, e⟩) ∪
    u.byID.filter fun _ b => b.endpoint.target ∈ failed

def desired : List (Str × Endpoint) :=
  targets.flatMap fun t => ((resolveTarget baseURL r t).getD []).map fun e => (e.id, e)

def Upstream.resolveOnce : Upstream :=
  u.reconcile ((desired baseURL targets r).foldl (fun m e => m.insert e.1 e.2) ∅)
    ((targets.filter fun t => (resolveTarget baseURL r t).isNone).map Target.raw)

def latest (t : Target) : List Round → List Endpoint
  | [] => []
  | r :: rs => (resolveTarget baseURL r t).getD (latest t rs)

end Resolve

variable {baseURL : Target → Str → Str} {targets : List Target} {t t' : Target} {e e' : Endpoint}
  {r : Round} {rs : List Round}

variable (baseURL t e) in
def Target.Has : Prop :=
  ∃ a : Str, Str.byte '|' ∉ a ∧ e = t.endpoint baseURL a

theorem has_of_resolve {es : List Endpoint} (h : resolveTarget baseURL r t = some es)
    (he : e ∈ es) : t.Has baseURL e := by
  rw [resolveTarget] at h
  split at h
  · obtain ⟨as, -, rfl⟩ := map_eq_some_iff.mp h
    obtain ⟨a, -, rfl⟩ := List.mem_map.mp he
    exact ⟨a.text, a.plain, rfl⟩
  · obtain rfl := some.inj h
    exact ⟨[], not_mem_nil, mem_singleton.mp he⟩

theorem has_of_latest (he : e ∈ latest baseURL t rs) : t.Has baseURL e := by
  induction rs with
  | nil => cases he
  | cons r rs ih =>
    rw [latest] at he
    cases hr : resolveTarget baseURL r t with
    | none => exact ih (by simpa [hr] using he)
    | some es => exact has_of_resolve hr (by simpa [hr] using he)

theorem append_bar_inj {x y a b : Str} (ha : Str.byte '|' ∉ a) (hb : Str.byte '|' ∉ b)
    (h : x ++ lit "|" ++ a = y ++ lit "|" ++ b) : x = y ∧ a = b := by
  have hbar : lit "|" = [Str.byte '|'] := by decide
  rw [append_assoc, append_assoc, append_eq_append_iff] at h
  obtain ⟨z, rfl, hz⟩ | ⟨z, rfl, hz⟩ := h
  · cases z with
    | nil => simpa using hz
    | cons c z => exact absurd (by simp_all) ha
  · cases z with
    | nil => simpa using hz.symm
    | cons c z => exact absurd (by simp_all) hb

theorem Target.Has.ext (hraw : t.raw = t'.raw → t = t') (h : t.Has baseURL e)
    (h' : t'.Has baseURL e') (hid : e.id = e'.id) : t = t' ∧ e = e' := by
  obtain ⟨a, ha, rfl⟩ := h
  obtain ⟨a', ha', rfl⟩ := h'
  simp only [endpoint] at hid
  have hmixed : ∀ {t t' : Target} {a : Str}, t.dynamic = true →
      t.raw ++ lit "|" ++ a ≠ lit "static|" ++ t'.raw := by
    intro t t' a ht heq
    have hbar : (lit "|").head? = some (Str.byte '|') := by decide
    have hstatic : (lit "static|").head? = some (Str.byte 's') := by decide
    have hhead := congrArg head? heq
    cases hraw : t.raw with
    | nil => exact absurd hhead (by simp [hraw, hbar, hstatic]; decide)
    | cons c raw => exact t.schemed ht (by simpa [hraw, hstatic] using hhead)
  cases hd : t.dynamic <;> cases hd' : t'.dynamic <;>
    simp only [hd, hd'] at hid
  · obtain rfl := hraw (append_cancel_left hid)
    exact ⟨rfl, by simp [endpoint, hd]⟩
  · exact absurd hid.symm (hmixed hd')
  · exact absurd hid (hmixed hd)
  · obtain ⟨hr, rfl⟩ := append_bar_inj ha ha' hid
    exact ⟨hraw hr, by rw [hraw hr]⟩

variable (baseURL targets rs) in
def Upstream.after : Upstream :=
  rs.foldr (fun r u => u.resolveOnce baseURL targets r) {}

theorem mem_desired {id : Str} : (id, e) ∈ desired baseURL targets r ↔
    e.id = id ∧ ∃ t ∈ targets, ∃ es, resolveTarget baseURL r t = some es ∧ e ∈ es := by
  simp only [desired, mem_flatMap, List.mem_map, Prod.mk.injEq]
  constructor
  · rintro ⟨t, ht, e, he, hid, rfl⟩
    cases hres : resolveTarget baseURL r t with
    | none => simp [hres] at he
    | some es => exact ⟨hid, t, ht, es, hres, by simpa [hres] using he⟩
  · rintro ⟨hid, t, ht, es, hres, he⟩
    exact ⟨t, ht, e, by simpa [hres] using he, hid, rfl⟩

theorem latest_cons (t : Target) : latest baseURL t (r :: rs) =
    (resolveTarget baseURL r t).getD (latest baseURL t rs) := rfl

theorem Target.Has.target (h : t.Has baseURL e) : e.target = t.raw := by
  obtain ⟨a, -, rfl⟩ := h
  rfl

theorem lookup_reconcile (u : Upstream) (d : FinMap Str Endpoint) (failed : List Str) (id : Str) :
    (u.reconcile d failed).byID.lookup id =
      ((d.lookup id).map fun e => (u.byID.lookup id).getD ⟨u.rounds, e⟩).or
        ((u.byID.lookup id).filter fun b => b.endpoint.target ∈ failed) := by
  rw [Upstream.reconcile]
  cases h : d.lookup id with
  | none =>
    rw [AList.lookup_union_right, FinMap.lookup_filter, map_none, none_or]
    rw [← AList.lookup_eq_none, FinMap.lookup_mapVal, h, map_none]
  | some e =>
    rw [AList.lookup_union_left, FinMap.lookup_mapVal, h, map_some, some_or]
    rw [← AList.lookup_isSome, FinMap.lookup_mapVal, h]
    rfl

structure Upstream.Holds (baseURL : Target → Str → Str) (targets : List Target) (rs : List Round)
    (u : Upstream) : Prop where
  known : ∀ id b, u.byID.lookup id = some b →
    b.endpoint.id = id ∧ ∃ t ∈ targets, b.endpoint ∈ latest baseURL t rs
  found : ∀ t ∈ targets, ∀ e ∈ latest baseURL t rs,
    ∃ b, u.byID.lookup e.id = some b ∧ b.endpoint = e

section Rounds

variable (hraw : ∀ t ∈ targets, ∀ t' ∈ targets, t.raw = t'.raw → t = t')

include hraw

theorem lookup_desired {id : Str} :
    ((desired baseURL targets r).foldl (fun m e => m.insert e.1 e.2) ∅ : FinMap Str Endpoint).lookup
      id = some e ↔ (id, e) ∈ desired baseURL targets r := by
  have huniq : ∀ {v v' : Endpoint}, (id, v) ∈ desired baseURL targets r →
      (id, v') ∈ desired baseURL targets r → v' = v := by
    intro v v' hv hv'
    obtain ⟨hid, t, ht, es, hres, he⟩ := mem_desired.mp hv
    obtain ⟨hid', t', ht', es', hres', he'⟩ := mem_desired.mp hv'
    exact ((has_of_resolve hres' he').ext (hraw t' ht' t ht) (has_of_resolve hres he)
      (hid'.trans hid.symm)).2
  constructor
  · intro h
    by_cases hmem : ∃ v, (id, v) ∈ desired baseURL targets r
    · obtain ⟨v, hv⟩ := hmem
      rw [FinMap.lookup_foldl_insert_of_mem _ hv fun _ => huniq hv] at h
      rwa [← some.inj h]
    · rw [FinMap.lookup_foldl_insert_of_not_mem _ (not_exists.mp hmem)] at h
      cases h
  · exact fun h => FinMap.lookup_foldl_insert_of_mem _ h fun _ => huniq h

theorem Upstream.Holds.endpoint_eq {u : Upstream} {old : Backend} (h : u.Holds baseURL targets rs)
    (hold : u.byID.lookup e.id = some old) (ht : t ∈ targets) (he : t.Has baseURL e) :
    old.endpoint = e := by
  obtain ⟨hid, t', ht', he'⟩ := h.known e.id old hold
  exact ((has_of_latest he').ext (hraw t' ht' t ht) he hid).2

theorem Upstream.Holds.resolveOnce {u : Upstream} (h : u.Holds baseURL targets rs) :
    (u.resolveOnce baseURL targets r).Holds baseURL targets (r :: rs) where
  known id b hb := by
    rw [Upstream.resolveOnce, lookup_reconcile] at hb
    cases hd : ((desired baseURL targets r).foldl (fun m e => m.insert e.1 e.2) ∅ :
        FinMap Str Endpoint).lookup id with
    | some e =>
      rw [hd] at hb
      obtain ⟨hid, t, ht, es, hres, he⟩ := mem_desired.mp ((lookup_desired hraw).mp hd)
      subst hid
      have hbe : b.endpoint = e := by
        rw [← some.inj hb]
        cases hold : u.byID.lookup e.id with
        | none => rfl
        | some old => exact h.endpoint_eq hraw hold ht (has_of_resolve hres he)
      rw [hbe]
      exact ⟨rfl, t, ht, by rwa [latest_cons, hres]⟩
    | none =>
      rw [hd, map_none, none_or, filter_eq_some_iff] at hb
      obtain ⟨hid, t, ht, he⟩ := h.known id b hb.1
      obtain ⟨t', hfail, htarget⟩ := List.mem_map.mp (of_decide_eq_true hb.2)
      obtain ⟨ht', hfail⟩ := mem_filter.mp hfail
      obtain rfl := hraw t' ht' t ht (htarget.trans (has_of_latest he).target)
      exact ⟨hid, t', ht, by rwa [latest_cons, isNone_iff_eq_none.mp hfail]⟩
  found t ht e he := by
    rw [Upstream.resolveOnce, lookup_reconcile]
    cases hres : resolveTarget baseURL r t with
    | some es =>
      rw [latest_cons, hres] at he
      rw [(lookup_desired hraw).mpr (mem_desired.mpr ⟨rfl, t, ht, es, hres, he⟩)]
      refine ⟨_, rfl, ?_⟩
      cases hold : u.byID.lookup e.id with
      | none => rfl
      | some old => exact h.endpoint_eq hraw hold ht (has_of_resolve hres he)
    | none =>
      rw [latest_cons, hres] at he
      obtain ⟨old, hold, rfl⟩ := h.found t ht e he
      refine ⟨old, ?_, rfl⟩
      have hnone : ((desired baseURL targets r).foldl (fun m e => m.insert e.1 e.2) ∅ :
          FinMap Str Endpoint).lookup old.endpoint.id = none := by
        rw [eq_none_iff_forall_ne_some]
        intro e' he'
        obtain ⟨hid, t', ht', es, hres', hmem⟩ := mem_desired.mp ((lookup_desired hraw).mp he')
        obtain ⟨rfl, -⟩ := (has_of_resolve hres' hmem).ext (hraw t' ht' t ht)
          (has_of_latest he) hid
        rw [hres] at hres'
        cases hres'
      have hfailed : old.endpoint.target ∈
          (targets.filter fun t => (resolveTarget baseURL r t).isNone).map Target.raw :=
        List.mem_map.mpr ⟨t, mem_filter.mpr ⟨ht, by rw [hres]; rfl⟩,
          (has_of_latest he).target.symm⟩
      rw [hnone, hold, map_none, none_or, filter_some, if_pos (decide_eq_true hfailed)]

theorem Upstream.holds_after (rs : List Round) :
    (Upstream.after baseURL targets rs).Holds baseURL targets rs := by
  induction rs with
  | nil => exact ⟨nofun, fun t _ e he => nomatch he⟩
  | cons r rs ih => exact ih.resolveOnce hraw

end Rounds

theorem Upstream.resolveOnce_same {u : Upstream} {id : Str} {b b' : Backend}
    (hb : u.byID.lookup id = some b)
    (hb' : (u.resolveOnce baseURL targets r).byID.lookup id = some b') : b' = b := by
  rw [Upstream.resolveOnce, lookup_reconcile, hb] at hb'
  rcases or_eq_some_iff.mp hb' with h | ⟨-, h⟩
  · obtain ⟨e, -, rfl⟩ := map_eq_some_iff.mp h
    rfl
  · exact (some.inj (filter_eq_some_iff.mp h).1).symm

/-- **A pool holds what each target was last resolved to**: one backend for each endpoint, the same
object as long as it is there, and the ring holds their ids. -/
theorem resolve_converges (baseURL : Target → Str → Str) (targets : List Target)
    (hdistinct : (targets.map Target.raw).Nodup) (md5 : Str → Fin 4 → Point) (replicas : Int)
    (r : Round) (rs : List Round) :
    let u := Upstream.after baseURL targets rs
    let u' := Upstream.after baseURL targets (r :: rs)
    (∀ e, (∃ b, u'.byID.lookup e.id = some b ∧ b.endpoint = e) ↔
      ∃ t ∈ targets, e ∈ latest baseURL t (r :: rs)) ∧
    (∀ id b, u'.byID.lookup id = some b → b.endpoint.id = id) ∧
    (∀ id b b', u.byID.lookup id = some b → u'.byID.lookup id = some b' → b' = b) ∧
    ∀ ids : List Str, ids.Perm u'.byID.keys →
      (∀ ring, newRing md5 replicas ids = some ring →
        ring.Ok ∧ ∀ id, id ∈ ring.ids ↔ ∃ b, u'.byID.lookup id = some b) ∧
      (ids.length * (ringRounds replicas * 4) ≤ 4294967296 →
        ∃ ring, newRing md5 replicas ids = some ring) := by
  intro u u'
  have h : u'.Holds baseURL targets (r :: rs) :=
    Upstream.holds_after (fun t ht t' ht' => inj_on_of_nodup_map hdistinct ht ht') (r :: rs)
  refine ⟨fun e => ⟨?_, fun ⟨t, ht, he⟩ => h.found t ht e he⟩, fun id b hb => (h.known id b hb).1,
    fun id b b' => Upstream.resolveOnce_same,
    fun ids hids => ⟨fun ring hring => ?_, exists_newRing md5⟩⟩
  · rintro ⟨b, hb, rfl⟩
    exact (h.known _ b hb).2
  · obtain ⟨hok, -, hmem⟩ := newRing_ok hring
    refine ⟨hok, fun id => ?_⟩
    rw [hmem, hids.mem_iff, ← AList.mem_keys, ← AList.lookup_isSome, isSome_iff_exists]

theorem resolve_converges_two :
    (∃ b, (Upstream.after (fun _ _ => []) [⟨lit "http://a", false, nofun⟩,
        ⟨lit "dns://b:80", true, by decide⟩] [fun _ => some [⟨lit "10.0.0.1", by decide⟩]]).byID.lookup
      (lit "static|http://a") = some b ∧ b.endpoint = ⟨lit "static|http://a", [], lit "http://a"⟩) :=
  ((resolve_converges (fun _ _ => []) [⟨lit "http://a", false, nofun⟩,
    ⟨lit "dns://b:80", true, by decide⟩] (by decide) (fun _ _ => 0) 4
    (fun _ => some [⟨lit "10.0.0.1", by decide⟩]) []).1 ⟨lit "static|http://a", [], lit "http://a"⟩).mpr
    ⟨_, mem_cons_self, mem_cons_self⟩

end Cadish.Lb
