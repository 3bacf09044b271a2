import Cadish.Controller.Ingress
import Cadish.Lib.Precedence

/-!
# What a site of an Ingress routes

The rules for a host say what is served: the most specific rule that names the path, else the
default backend, else 404. The text of the site says it with sorted routes, bare routes for the
prefix `/`, and an answer for the rest. **Both say the same** (`verdict_siteStatements`), of sites
with a rule or a default backend, upstreams of different names, and paths without `*`.
-/

namespace Cadish

open List Option Precedence

namespace Ingress

open Controller Cadishfile

variable {targets : List Target} {t : Target}

/-! ## What is expected -/

/-- The rule names the path. The prefix `/` names every path. -/
def Route.serves (r : Route) (q : Str) : Bool := isCatchAll r || r.pathType.kind.covers r.path q

def Route.AsSpecific (a b : Route) : Prop :=
  specRank a < specRank b ∨ specRank a = specRank b ∧ b.path.length ≤ a.path.length

instance : DecidableRel Route.AsSpecific := fun _ _ => inferInstanceAs (Decidable (_ ∨ _ ∧ _))

/-- What the rules of a host, from the oldest Ingress to the youngest, say of a path. -/
def expected (rules : List Route) (default : Option Target) (q : Str) : Outcome :=
  match leader Route.AsSpecific (rules.filter (·.serves q)) with
  | some r => .pool [r.target.address]
  | none =>
    match default with
    | some t => .pool [t.address]
    | none => .status 404

instance : IsTrans Route Route.AsSpecific where
  trans a b c := by
    simp only [Route.AsSpecific]
    omega

instance : Std.Total Route.AsSpecific where
  total a b := by
    simp only [Route.AsSpecific]
    omega

instance : IsTrans Route Route.Before where
  trans a b c := by
    intro hab hbc
    simp only [Route.Before] at *
    rcases hab with hab | ⟨hab, hab' | ⟨hab', hpath⟩⟩ <;> rcases hbc with hbc | ⟨hbc, hbc' | ⟨hbc', hpath'⟩⟩
    all_goals first
      | exact .inl (by omega)
      | exact .inr ⟨by omega, .inl (by omega)⟩
      | exact .inr ⟨by omega, .inr ⟨by omega, List.le_trans hpath hpath'⟩⟩

instance : Std.Total Route.Before where
  total a b := by
    simp only [Route.Before]
    rcases Nat.lt_trichotomy (specRank a) (specRank b) with hrank | hrank | hrank
    · exact .inl (.inl hrank)
    · rcases Nat.lt_trichotomy a.path.length b.path.length with hlen | hlen | hlen
      · exact .inr (.inr ⟨hrank.symm, .inl hlen⟩)
      · rcases List.le_total a.path b.path with hpath | hpath
        · exact .inl (.inr ⟨hrank, .inr ⟨hlen, hpath⟩⟩)
        · exact .inr (.inr ⟨hrank.symm, .inr ⟨hlen.symm, hpath⟩⟩)
      · exact .inl (.inr ⟨hrank, .inl hlen⟩)
    · exact .inr (.inl hrank)

def Absolute (p : Str) : Prop := p.head? = some (Str.byte '/')

instance (p : Str) : Decidable (Absolute p) := inferInstanceAs (Decidable (_ = _))

theorem Absolute.eq_slash {p : Str} (h : Absolute p) (hlen : p.length ≤ 1) : p = lit "/" := by
  cases p with
  | nil => cases h
  | cons b p =>
    cases p with
    | nil =>
      cases h
      rfl
    | cons c p => simp at hlen

theorem isCatchAll_iff {r : Route} : isCatchAll r = true ↔ specRank r = 1 ∧ r.path = lit "/" := by
  rw [isCatchAll, specRank]
  by_cases h : r.pathType = .pathExact <;> simp

theorem prefix_of_covers {kind : PathKind} {p q : Str} (h : kind.covers p q = true) : p <+: q := by
  cases kind with
  | pathExact =>
    rw [PathKind.covers, beq_iff_eq] at h
    exact h ▸ prefix_refl p
  | pathPrefix =>
    rw [PathKind.covers, Bool.or_eq_true, beq_iff_eq] at h
    rcases h with h | h
    · exact h ▸ prefix_refl p
    · exact (prefix_append _ _).trans ( isPrefixOf_iff_prefix.mp h)

section

variable {a b : Route} {q : Str} (ha : Absolute a.path) (hb : Absolute b.path)

include ha hb

theorem path_eq_of_serves (hserves : a.serves q = true) (hserves' : b.serves q = true)
    (hlen : a.path.length = b.path.length) : a.path = b.path := by
  rw [Route.serves, Bool.or_eq_true, isCatchAll_iff] at hserves hserves'
  rcases hserves with ⟨-, hroot⟩ | hserves
  · rw [hroot] at hlen ⊢
    exact (hb.eq_slash hlen.symm.le).symm
  rcases hserves' with ⟨-, hroot⟩ | hserves'
  · rw [hroot] at hlen ⊢
    exact ha.eq_slash hlen.le
  · exact (prefix_of_prefix_length_le (prefix_of_covers hserves) (prefix_of_covers hserves')
      hlen.le).eq_of_length hlen

theorem before_iff_asSpecific (hserves : a.serves q = true) (hserves' : b.serves q = true) :
    a.Before b ↔ a.AsSpecific b := by
  have hpath := path_eq_of_serves ha hb hserves hserves'
  constructor
  · rintro (hrank | ⟨hrank, hlen | ⟨hlen, -⟩⟩)
    · exact .inl hrank
    · exact .inr ⟨hrank, hlen.le⟩
    · exact .inr ⟨hrank, hlen.ge⟩
  · rintro (hrank | ⟨hrank, hlen⟩)
    · exact .inl hrank
    · rcases hlen.lt_or_eq with hlen | hlen
      · exact .inr ⟨hrank, .inl hlen⟩
      · exact .inr ⟨hrank, .inr ⟨hlen.symm, hpath hlen.symm ▸ List.le_refl _⟩⟩

omit hb in
theorem isCatchAll_of_before (hbefore : b.Before a) (hcatch : isCatchAll b = true) : isCatchAll a = true := by
  obtain ⟨hrank, hroot⟩ := isCatchAll_iff.mp hcatch
  have hle : specRank a ≤ 1 := by
    rw [specRank]
    split <;> omega
  have hlen : b.path.length = 1 := by rw [hroot]; rfl
  rcases hbefore with hlt | ⟨heq, hlt | ⟨hlen', -⟩⟩
  · omega
  · have hshort : a.path.length ≤ 1 := by omega
    exact isCatchAll_iff.mpr ⟨heq ▸ hrank, ha.eq_slash hshort⟩
  · exact isCatchAll_iff.mpr ⟨heq ▸ hrank, ha.eq_slash (by omega)⟩

end

theorem leader_serves {rules : List Route} (h : ∀ r ∈ rules, Absolute r.path) (q : Str) :
    leader Route.AsSpecific (rules.filter (·.serves q)) =
      (((rules.insertionSort Route.Before).filter fun r => !isCatchAll r).find?
          fun r => r.pathType.kind.covers r.path q).or
        ((rules.insertionSort Route.Before).filter isCatchAll).head? := by
  have hcongr : leader Route.AsSpecific (rules.filter (·.serves q)) =
      leader Route.Before (rules.filter (·.serves q)) := by
    refine (leader_congr fun a ha b hb => ?_).symm
    obtain ⟨ha, hserves⟩ := mem_filter.mp ha
    obtain ⟨hb, hserves'⟩ := mem_filter.mp hb
    exact before_iff_asSpecific (h a ha) (h b hb) hserves hserves'
  have hsorted : (rules.insertionSort Route.Before).Pairwise fun a b =>
      (!isCatchAll b) = true → (!isCatchAll a) = true := by
    refine (pairwise_insertionSort Route.Before rules).imp_of_mem fun {a b} _ hb hbefore hnot => ?_
    rw [mem_insertionSort] at hb
    by_contra hcatch
    rw [isCatchAll_of_before (h b hb) hbefore (by simpa using hcatch)] at hnot
    cases hnot
  have hsplit := filter_append_filter hsorted
  simp only [Bool.not_not] at hsplit
  rw [hcongr, ← find?_insertionSort, ← hsplit, find?_append]
  congr 1
  · rw [hsplit]
    refine find?_congr fun r hr => ?_
    have hnot := (mem_filter.mp hr).2
    rw [Bool.not_eq_true'] at hnot
    rw [Route.serves, hnot, Bool.false_or]
  · rw [hsplit]
    have hall : ∀ r ∈ (rules.insertionSort Route.Before).filter isCatchAll, r.serves q = true := by
      intro r hr
      rw [Route.serves, (mem_filter.mp hr).2, Bool.true_or]
    revert hall
    cases (rules.insertionSort Route.Before).filter isCatchAll with
    | nil => exact fun _ => rfl
    | cons r rest => exact fun hall => find?_cons_of_pos (hall r mem_cons_self)

/-! ## Upstreams -/

def upstreams (targets : List Target) : List (Str × Str) := targets.foldl addUp []

/-- The first block of a name counts. -/
def addBlock (ups : List (Str × Str)) (u : Str × Str) : List (Str × Str) :=
  if ups.any (·.1 = u.1) then ups else ups ++ [u]

section

variable {us : List (Str × Str)} {u : Str × Str}

theorem foldl_subset_of_append {α : Type} {f : List α → α → List α}
    (hf : ∀ acc a, f acc a = acc ∨ f acc a = acc ++ [a]) (l : List α) : l.foldl f [] ⊆ l := by
  refine foldlRecOn (motive := (· ⊆ l)) l f (nil_subset l) fun acc hacc a ha => ?_
  obtain h | h := hf acc a
  · rwa [h]
  · rw [h]
    exact append_subset.mpr ⟨hacc, cons_subset.mpr ⟨ha, nil_subset l⟩⟩

theorem blocks_subset (us : List (Str × Str)) : us.foldl addBlock [] ⊆ us :=
  foldl_subset_of_append (fun _ _ => ite_eq_or_eq _ _ _) us

theorem name_mem_blocks (h : u ∈ us) : u.1 ∈ (us.foldl addBlock []).map Prod.fst := by
  induction us using reverseRecOn with
  | nil => cases h
  | append_singleton us v ih =>
    rw [foldl_concat, addBlock]
    rcases mem_append.mp h with h | h
    · split
      · exact ih h
      · rw [map_append]
        exact mem_append_left _ (ih h)
    · obtain rfl := mem_singleton.mp h
      split
      · rename_i hany
        obtain ⟨v, hv, hname⟩ := List.any_eq_true.mp hany
        exact List.mem_map.mpr ⟨v, hv, of_decide_eq_true hname⟩
      · simp

theorem nodup_blocks (us : List (Str × Str)) : ((us.foldl addBlock []).map Prod.fst).Nodup := by
  induction us using reverseRecOn with
  | nil => exact nodup_nil
  | append_singleton us u ih =>
    rw [foldl_concat, addBlock]
    split
    · exact ih
    rename_i hnone
    rw [map_append]
    refine ih.append (nodup_singleton _) (disjoint_singleton.mpr fun hmem => ?_)
    obtain ⟨v, hv, heq⟩ := List.mem_map.mp hmem
    exact hnone (List.any_eq_true.mpr ⟨v, hv, decide_eq_true heq⟩)

/-- Each block of a list is found under its name just if no other has the name. -/
theorem lookup_blocks_iff {α : Type} {us ups : List (Str × α)} (hnodup : (ups.map Prod.fst).Nodup)
    (hmem : ∀ u ∈ ups, u ∈ us) (hname : ∀ u ∈ us, u.1 ∈ ups.map Prod.fst) :
    (∀ u ∈ us, ups.lookup u.1 = some u.2) ↔ ∀ u ∈ us, ∀ v ∈ us, u.1 = v.1 → u.2 = v.2 := by
  constructor
  · intro h u hu v hv heq
    exact some.inj ((h u hu).symm.trans (heq ▸ h v hv))
  · intro h u hu
    obtain ⟨v, hv, heq⟩ := List.mem_map.mp (hname u hu)
    rw [← h v (hmem v hv) u hu heq, ← heq]
    exact lookup_of_nodup hnodup hv

end

theorem upstreams_eq (targets : List Target) : upstreams targets =
    (targets.map fun t => (upstreamName t, t.address)).foldl addBlock [] := by
  rw [foldl_map]
  rfl

/-- Backends with the same name for their upstreams are the same. -/
def NamesApart (targets : List Target) : Prop :=
  ∀ t ∈ targets, ∀ t' ∈ targets, upstreamName t = upstreamName t' → t = t'

instance (targets : List Target) : Decidable (NamesApart targets) :=
  inferInstanceAs (Decidable (∀ t ∈ targets, ∀ t' ∈ targets, upstreamName t = upstreamName t' → t = t'))

theorem mem_upstreams {u : Str × Str} (h : u ∈ upstreams targets) :
    ∃ t ∈ targets, u = (upstreamName t, t.address) := by
  rw [upstreams_eq] at h
  obtain ⟨t, ht, rfl⟩ := List.mem_map.mp (blocks_subset _ h)
  exact ⟨t, ht, rfl⟩

def pools (targets : List Target) : List (Str × List Str) :=
  ((upstreams targets).insertionSort fun a b => a.1 ≤ b.1).map fun u => (u.1, [u.2])

theorem pools_fst (targets : List Target) : ((pools targets).map Prod.fst).Perm
    ((upstreams targets).map Prod.fst) := by
  rw [pools, List.map_map]
  exact (perm_insertionSort _ _).map _

theorem nodup_pools (targets : List Target) : ((pools targets).map Prod.fst).Nodup := by
  rw [(pools_fst targets).nodup_iff, upstreams_eq]
  exact nodup_blocks _

theorem name_mem_pools (h : t ∈ targets) : upstreamName t ∈ (pools targets).map Prod.fst := by
  rw [(pools_fst targets).mem_iff, upstreams_eq]
  exact name_mem_blocks (List.mem_map_of_mem h)

theorem lookup_pools_iff (targets : List Target) :
    (∀ t ∈ targets, (pools targets).lookup (upstreamName t) = some [t.address]) ↔
      ∀ t ∈ targets, ∀ t' ∈ targets, upstreamName t = upstreamName t' → t.address = t'.address := by
  have hiff := @lookup_blocks_iff _ (targets.map fun t => (upstreamName t, [t.address])) _
    (nodup_pools targets) (fun u hu => ?_) (List.forall_mem_map.mpr fun t => name_mem_pools)
  · simpa only [List.forall_mem_map, cons.injEq, and_true] using hiff
  · obtain ⟨v, hv, rfl⟩ := List.mem_map.mp hu
    obtain ⟨t, ht, rfl⟩ := mem_upstreams ((mem_insertionSort _).mp hv)
    exact List.mem_map_of_mem ht

theorem lookup_pools (hapart : NamesApart targets) (h : t ∈ targets) :
    (pools targets).lookup (upstreamName t) = some [t.address] :=
  (lookup_pools_iff targets).mpr
    (fun t ht t' ht' heq => congrArg Target.address (hapart t ht t' ht' heq)) t h

/-! ## The statements of a site -/

section

variable (rules : List Route) (default : Option Target)

variable {x : Route × Nat} {t : Target}

def routed : List Route := rules.insertionSort Route.Before

def matchedRoutes : List (Route × Nat) := ((routed rules).filter fun r => !isCatchAll r).zipIdx

def bareRoutes : List Route := (routed rules).filter isCatchAll

def siteTargets : List Target := (routed rules).map (·.target) ++ default.toList

def terminal : List Gen :=
  if bareRoutes rules = [] ∧ default = none ∧ matchedRoutes rules ≠ [] then
    [.respond ((matchedRoutes rules).map fun (_, i) => ⟨matcherName i, true⟩) .notFound]
  else []

theorem filterMap_terminal {β : Type} (f : Gen → Option β) (h : ∀ terms status, f (.respond terms status) = none) :
    (terminal rules default).filterMap f = [] := by
  rw [terminal]
  split
  · rw [filterMap_cons, h]
    rfl
  · rfl

variable (acme : Bool) (acmeEmail : Str)

theorem siteStatements_eq : siteStatements rules default acme acmeEmail =
    (if acme ∧ upstreams (siteTargets rules default) ≠ [] then
      [.tls (lit "acme" :: if acmeEmail = [] then [] else [acmeEmail])] else []) ++
    (pools (siteTargets rules default)).map (fun u => .upstream u.1 u.2) ++
    (matchedRoutes rules).flatMap (fun (r, i) =>
      [.matcher (matcherName i) (lit "path") (r.pathType.kind.args r.path),
        .route (some (matcherName i)) (upstreamName r.target)]) ++
    (bareRoutes rules).map (fun r => .route none (upstreamName r.target)) ++
    default.toList.map (fun t => .route none (upstreamName t)) ++ terminal rules default := by
  rw [pools, List.map_map]
  rfl

theorem filterMap_siteStatements {β : Type} (f : Gen → Option β) (htls : ∀ ws, f (.tls ws) = none) :
    (siteStatements rules default acme acmeEmail).filterMap f =
      (pools (siteTargets rules default)).filterMap (fun u => f (.upstream u.1 u.2)) ++
      ((matchedRoutes rules).flatMap (fun (r, i) =>
        [.matcher (matcherName i) (lit "path") (r.pathType.kind.args r.path),
          .route (some (matcherName i)) (upstreamName r.target)].filterMap f) ++
      (((bareRoutes rules).map (·.target) ++ default.toList).filterMap
          (fun t => f (.route none (upstreamName t))) ++
        (terminal rules default).filterMap f)) := by
  have htls' : (if acme ∧ upstreams (siteTargets rules default) ≠ [] then
      [Gen.tls (lit "acme" :: if acmeEmail = [] then [] else [acmeEmail])] else []).filterMap f = [] := by
    split
    · rw [filterMap_cons, htls]
      rfl
    · rfl
  rw [siteStatements_eq]
  simp only [filterMap_append, htls', nil_append, filterMap_map, filterMap_flatMap,
    append_assoc, Function.comp_def]

theorem pool_siteStatements : (siteStatements rules default acme acmeEmail).filterMap Gen.pool? =
    pools (siteTargets rules default) := by
  rw [filterMap_siteStatements _ _ _ _ _ fun _ => rfl, filterMap_terminal _ _ _ fun _ _ => rfl]
  simp [Gen.pool?]

theorem route_siteStatements : (siteStatements rules default acme acmeEmail).filterMap Gen.route? =
    (matchedRoutes rules).map (fun (r, i) => (some (matcherName i), upstreamName r.target)) ++
      ((bareRoutes rules).map (·.target) ++ default.toList).map fun t => (none, upstreamName t) := by
  rw [filterMap_siteStatements _ _ _ _ _ fun _ => rfl, filterMap_terminal _ _ _ fun _ _ => rfl]
  simp [Gen.route?, map_eq_flatMap]
  rfl

theorem defines_siteStatements : (siteStatements rules default acme acmeEmail).filterMap Gen.defines? =
    (matchedRoutes rules).map fun (_, i) => matcherName i := by
  rw [filterMap_siteStatements _ _ _ _ _ fun _ => rfl, filterMap_terminal _ _ _ fun _ _ => rfl]
  simp [Gen.defines?, map_eq_flatMap]
  rfl

theorem respond_siteStatements : (siteStatements rules default acme acmeEmail).filterMap Gen.respond? =
    if bareRoutes rules = [] ∧ default = none ∧ matchedRoutes rules ≠ [] then
      [((matchedRoutes rules).map fun (_, i) => ⟨matcherName i, true⟩, .notFound)]
    else [] := by
  rw [filterMap_siteStatements _ _ _ _ _ fun _ => rfl, terminal]
  split <;> simp [Gen.respond?]

/-! ## The meaning of a site -/

variable {rules default}

def meaningOf (rules : List Route) (n : Str) : Matcher :=
  match (matchedRoutes rules).find? fun x => matcherName x.2 = n with
  | some (r, _) => .path (PathSet.ofPatterns (r.pathType.kind.args r.path)).matches
  | none => .path fun _ => false

theorem meaningOf_matcherName {r : Route} {i : Nat} (h : (r, i) ∈ matchedRoutes rules) :
    meaningOf rules (matcherName i) = .path (PathSet.ofPatterns (r.pathType.kind.args r.path)).matches := by
  have hfind : (matchedRoutes rules).find? (fun x => matcherName x.2 = matcherName i) = some (r, i) := by
    cases hfind : (matchedRoutes rules).find? (fun x => matcherName x.2 = matcherName i) with
    | none => exact absurd (decide_eq_true rfl) (find?_eq_none.mp hfind _ h)
    | some x =>
      obtain ⟨r', j⟩ := x
      have hname := find?_some hfind
      obtain rfl : j = i := matcherName_injective (of_decide_eq_true hname)
      have hmem := mem_of_find?_eq_some hfind
      rw [matchedRoutes, mem_zipIdx_iff_getElem?] at h hmem
      have hr : r' = r := some.inj (hmem.symm.trans h)
      rw [hr]
  rw [meaningOf, hfind]

structure Writable (r : Route) : Prop where
  rooted : Absolute r.path
  quotable : Quotable r.path
  literal : star ∉ r.path
  target : r.target.Valid

instance (r : Route) : Decidable (Writable r) :=
  decidable_of_iff (Absolute r.path ∧ Quotable r.path ∧ star ∉ r.path ∧ r.target.Valid)
    ⟨fun h => ⟨h.1, h.2.1, h.2.2.1, h.2.2.2⟩, fun h => ⟨h.rooted, h.quotable, h.literal, h.target⟩⟩

theorem mem_matchedRoutes (h : x ∈ matchedRoutes rules) : x.1 ∈ rules ∧ isCatchAll x.1 = false := by
  rw [matchedRoutes, mem_zipIdx_iff_getElem?] at h
  obtain ⟨hmem, hcatch⟩ := mem_filter.mp (mem_of_getElem? h)
  exact ⟨(mem_insertionSort _).mp hmem, by simpa using hcatch⟩

theorem nodup_matcherNames (rules : List Route) :
    ((matchedRoutes rules).map fun x => matcherName x.2).Nodup := by
  have hnodup : ((matchedRoutes rules).map Prod.snd).Nodup := by
    rw [matchedRoutes, zipIdx_map_snd]
    exact nodup_range'
  have hmap : ((matchedRoutes rules).map fun x => matcherName x.2) =
      ((matchedRoutes rules).map Prod.snd).map matcherName := by
    rw [List.map_map]
    rfl
  rw [hmap]
  exact hnodup.map fun i j h => matcherName_injective h

theorem targets_mem {r : Route} (h : r ∈ routed rules) : r.target ∈ siteTargets rules default :=
  mem_append_left _ (List.mem_map_of_mem h)

theorem pools_ne_nil (h : rules ≠ [] ∨ default ≠ none) : pools (siteTargets rules default) ≠ [] := by
  have htarget : ∃ t, t ∈ siteTargets rules default := by
    rcases h with h | h
    · obtain ⟨r, hr⟩ := exists_mem_of_ne_nil _ h
      exact ⟨r.target, targets_mem ((mem_insertionSort _).mpr hr)⟩
    · obtain ⟨t, ht⟩ := ne_none_iff_exists'.mp h
      exact ⟨t, mem_append_right _ (mem_toList.mpr ht)⟩
  obtain ⟨t, ht⟩ := htarget
  intro hnil
  have hmem := name_mem_pools ht
  rw [hnil] at hmem
  cases hmem

inductive SiteStatement (rules : List Route) (default : Option Target) (acmeEmail : Str) : Gen → Prop
  | tls : SiteStatement rules default acmeEmail
      (.tls (lit "acme" :: if acmeEmail = [] then [] else [acmeEmail]))
  | upstream {u : Str × List Str} (hu : u ∈ pools (siteTargets rules default)) :
    SiteStatement rules default acmeEmail (.upstream u.1 u.2)
  | matcher {x : Route × Nat} (hx : x ∈ matchedRoutes rules) : SiteStatement rules default acmeEmail
      (.matcher (matcherName x.2) (lit "path") (x.1.pathType.kind.args x.1.path))
  | route {x : Route × Nat} (hx : x ∈ matchedRoutes rules) :
    SiteStatement rules default acmeEmail (.route (some (matcherName x.2)) (upstreamName x.1.target))
  | bare {t : Target} (ht : t ∈ (bareRoutes rules).map (·.target) ++ default.toList) :
    SiteStatement rules default acmeEmail (.route none (upstreamName t))
  | terminal (h : matchedRoutes rules ≠ []) : SiteStatement rules default acmeEmail
      (.respond ((matchedRoutes rules).map fun x => ⟨matcherName x.2, true⟩) .notFound)

theorem mem_siteStatements {s : Gen} (h : s ∈ siteStatements rules default acme acmeEmail) :
    SiteStatement rules default acmeEmail s := by
  rw [siteStatements_eq, terminal] at h
  simp only [mem_append, List.mem_map, mem_flatMap, Prod.exists] at h
  rcases h with ((((h | ⟨n, ts, hu, rfl⟩) | ⟨r, i, hx, hs⟩) | ⟨r, hr, rfl⟩) | ⟨t, ht, rfl⟩) | h
  · split at h
    · obtain rfl := mem_singleton.mp h
      exact .tls
    · cases h
  · exact .upstream hu
  · rcases mem_cons.mp hs with rfl | hs
    · exact .matcher hx
    · obtain rfl := mem_singleton.mp hs
      exact .route hx
  · exact .bare (mem_append_left _ (List.mem_map_of_mem hr))
  · exact .bare (mem_append_right _ ht)
  · split at h
    · rename_i hcond
      obtain rfl := mem_singleton.mp h
      exact .terminal hcond.2.2
    · cases h

theorem bare_mem (h : t ∈ (bareRoutes rules).map (·.target) ++ default.toList) :
    t ∈ siteTargets rules default := by
  rcases mem_append.mp h with h | h
  · obtain ⟨r, hr, rfl⟩ := List.mem_map.mp h
    exact targets_mem (mem_of_mem_filter hr)
  · exact mem_append_right _ h

theorem matched_mem (h : x ∈ matchedRoutes rules) : x.1.target ∈ siteTargets rules default :=
  targets_mem ((mem_insertionSort _).mpr (mem_matchedRoutes h).1)

theorem meaning_siteStatements {g : PatternGrammar} {regexp : Str → Option Pattern}
    (hg : CompilesRequests g regexp) :
    Meaning g (siteStatements rules default acme acmeEmail) (meaningOf rules) where
  nodup := by
    rw [defines_siteStatements]
    exact nodup_matcherNames rules
  plain := by
    intro name type args h
    cases mem_siteStatements acme acmeEmail h with
    | @matcher x hx =>
      have hne : x.1.pathType.kind.args x.1.path ≠ [] := by
        cases x.1.pathType.kind <;> exact cons_ne_nil _ _
      rw [meaningOf_matcherName hx]
      refine ⟨by decide, by decide, ?_, rfl, rfl, fun _ => rfl⟩
      rw [hg (lit "path") (by decide)]
      simp [compileRequestMatcher, hne]
  all := by
    intro name terms h
    cases mem_siteStatements acme acmeEmail h
  route := by
    intro scope up h
    rw [pool_siteStatements, defines_siteStatements]
    cases mem_siteStatements acme acmeEmail h with
    | @route x hx =>
      refine ⟨name_mem_pools (matched_mem hx), fun n hn => ?_⟩
      obtain rfl := some.inj hn
      exact List.mem_map_of_mem hx
    | bare ht => exact ⟨name_mem_pools (bare_mem ht), fun n hn => by cases hn⟩
  respond := by
    intro terms status h
    rw [defines_siteStatements]
    cases mem_siteStatements acme acmeEmail h with
    | terminal hne =>
      refine ⟨fun hnil => hne (map_eq_nil_iff.mp hnil), fun r hr => ?_⟩
      obtain ⟨x, hx, rfl⟩ := List.mem_map.mp hr
      exact List.mem_map_of_mem hx

theorem plain_upstreamName (h : t.Valid) : Plain (upstreamName t) := by
  have hu : Plain (lit "u_") := by decide
  have hbar : Plain (lit "_") := by decide
  exact (((hu.append (plain_sanitize h.ns.1)).append hbar).append (plain_sanitize h.svc.1)).append hbar
    |>.append (plain_sanitize h.port.1)

theorem quotable_args {p : Str} (h : Quotable p) (kind : PathKind) : ∀ a ∈ kind.args p, Quotable a := by
  have hvalid := @map_toValidRunes_args p kind h.valid
  intro a ha
  refine ⟨printable_args h.printable a ha, ?_, guarded_args h.guarded a ha⟩
  exact map_inj_left.mp (hvalid.trans (List.map_id _).symm) a ha

theorem safe_siteStatements (hrules : ∀ r ∈ rules, Writable r) (hdefault : ∀ t ∈ default, t.Valid)
    (hemail : acmeEmail = [] ∨ Plain acmeEmail) :
    ∀ s ∈ siteStatements rules default acme acmeEmail, s.Safe := by
  have htargets : ∀ t ∈ siteTargets rules default, t.Valid := by
    intro t ht
    rcases mem_append.mp ht with ht | ht
    · obtain ⟨r, hr, rfl⟩ := List.mem_map.mp ht
      exact (hrules r ((mem_insertionSort _).mp hr)).target
    · exact hdefault t (mem_toList.mp ht)
  intro s hs
  cases mem_siteStatements acme acmeEmail hs with
  | tls =>
    intro w hw
    rcases mem_cons.mp hw with rfl | hw
    · decide
    · split at hw
      · cases hw
      · obtain rfl := mem_singleton.mp hw
        exact hemail.resolve_left ‹_›
  | upstream hu =>
    obtain ⟨v, hv, rfl⟩ := List.mem_map.mp hu
    obtain ⟨t, ht, rfl⟩ := mem_upstreams ((mem_insertionSort _).mp hv)
    exact ⟨plain_upstreamName (htargets t ht),
      forall_mem_singleton.mpr (htargets t ht).plain_address⟩
  | matcher hx =>
    exact ⟨plain_matcherName _, by decide, by decide,
      quotable_args (hrules _ (mem_matchedRoutes hx).1).quotable _⟩
  | route hx =>
    refine ⟨fun n hn => ?_, plain_upstreamName (htargets _ (matched_mem hx))⟩
    obtain rfl := some.inj hn
    exact plain_matcherName _
  | bare ht => exact ⟨fun n hn => (by cases hn), plain_upstreamName (htargets _ (bare_mem ht))⟩
  | terminal =>
    intro r hr
    obtain ⟨x, hx, rfl⟩ := List.mem_map.mp hr
    exact plain_matcherName _

theorem accepts_matcherName (hrules : ∀ r ∈ rules, Writable r) (hx : x ∈ matchedRoutes rules)
    (req : Request) : accepts (meaningOf rules) (matcherName x.2) req =
      x.1.pathType.kind.covers x.1.path req.path := by
  rw [accepts, meaningOf_matcherName hx]
  exact matches_args (hrules _ (mem_matchedRoutes hx).1).literal _

def firstMatched (rules : List Route) (req : Request) : Option (Route × Nat) :=
  (matchedRoutes rules).find? fun x => accepts (meaningOf rules) (matcherName x.2) req

theorem find?_matchedRoutes (hrules : ∀ r ∈ rules, Writable r) (req : Request) :
    (firstMatched rules req).map Prod.fst =
      ((routed rules).filter fun r => !isCatchAll r).find? fun r =>
        r.pathType.kind.covers r.path req.path := by
  have hcongr := find?_congr fun x hx => @accepts_matcherName rules x hrules hx req
  rw [firstMatched, hcongr]
  have hfst := zipIdx_map_fst 0 ((routed rules).filter fun r => !isCatchAll r)
  conv_rhs => rw [← hfst, find?_map]
  rfl

def backendFor (rules : List Route) (default : Option Target) (q : Str) : Option Target :=
  ((leader Route.AsSpecific (rules.filter (·.serves q))).map Route.target).or default

theorem backendFor_eq (hrules : ∀ r ∈ rules, Writable r) (req : Request) :
    backendFor rules default req.path =
      ((firstMatched rules req).map fun x => x.1.target).or (((bareRoutes rules).head?.map Route.target).or default) := by
  have hleader := leader_serves (fun r hr => (hrules r hr).rooted) req.path
  rw [← routed, ← find?_matchedRoutes hrules] at hleader
  rw [backendFor, hleader]
  cases firstMatched rules req with
  | some x | none => rfl

theorem find?_routes (hrules : ∀ r ∈ rules, Writable r) (req : Request) :
    (((siteStatements rules default acme acmeEmail).filterMap Gen.route?).find? fun (r : Option Str × Str) =>
      r.1.all fun n => accepts (meaningOf rules) n req).map Prod.snd =
      (backendFor rules default req.path).map upstreamName := by
  have hbare : (((bareRoutes rules).map (·.target) ++ default.toList).map fun t =>
      ((none : Option Str), upstreamName t)).find? (fun r => r.1.all fun n =>
        accepts (meaningOf rules) n req) =
      (((bareRoutes rules).head?.map Route.target).or default).map fun t => (none, upstreamName t) := by
    cases bareRoutes rules with
    | nil => cases default <;> rfl
    | cons => rfl
  have hmatched : ((matchedRoutes rules).map fun x => (some (matcherName x.2), upstreamName x.1.target)).find?
      (fun r => r.1.all fun n => accepts (meaningOf rules) n req) =
      (firstMatched rules req).map fun x => (some (matcherName x.2), upstreamName x.1.target) := by
    rw [find?_map]
    rfl
  rw [route_siteStatements, find?_append, hbare, backendFor_eq hrules, hmatched]
  cases firstMatched rules req with
  | some x => rfl
  | none => cases (bareRoutes rules).head? <;> cases default <;> rfl

theorem backendFor_mem {q : Str} (h : backendFor rules default q = some t) :
    t ∈ siteTargets rules default := by
  rw [backendFor, or_eq_some_iff] at h
  rcases h with h | ⟨-, h⟩
  · obtain ⟨r, hr, rfl⟩ := map_eq_some_iff.mp h
    have hmem := (leads_of_leader hr).mem
    exact targets_mem ((mem_insertionSort _).mpr (mem_of_mem_filter hmem))
  · exact mem_append_right _ (mem_toList.mpr h)

theorem expected_eq (q : Str) : expected rules default q =
    match backendFor rules default q with
    | some t => .pool [t.address]
    | none => .status 404 := by
  simp only [expected, backendFor]
  cases leader Route.AsSpecific (rules.filter (·.serves q)) with
  | some r => rfl
  | none => cases default <;> rfl

theorem rules_eq_nil (hmatched : matchedRoutes rules = []) (hbare : bareRoutes rules = []) : rules = [] := by
  have hfilter : (routed rules).filter (fun r => !isCatchAll r) = [] := zipIdx_eq_nil_iff.mp hmatched
  have hrouted : routed rules = [] := by
    refine eq_nil_iff_forall_not_mem.mpr fun r hr => ?_
    cases hcatch : isCatchAll r with
    | true => exact filter_eq_nil_iff.mp hbare r hr hcatch
    | false => exact filter_eq_nil_iff.mp hfilter r hr (by rw [hcatch]; rfl)
  have hlen := length_insertionSort Route.Before rules
  rw [routed] at hrouted
  rw [hrouted] at hlen
  exact length_eq_zero_iff.mp hlen.symm

theorem find?_terminal (hrules : ∀ r ∈ rules, Writable r) (hsome : rules ≠ [] ∨ default ≠ none)
    (req : Request) :
    (((siteStatements rules default acme acmeEmail).filterMap Gen.respond?).find? fun r =>
      r.1.all (Ref.holds (accepts (meaningOf rules)) req)).map Prod.snd =
      if backendFor rules default req.path = none then some .notFound else none := by
  rw [respond_siteStatements, backendFor_eq hrules]
  by_cases hcond : bareRoutes rules = [] ∧ default = none ∧ matchedRoutes rules ≠ []
  · rw [if_pos hcond]
    obtain ⟨hbare, hdefault, -⟩ := hcond
    have hall : ((matchedRoutes rules).map fun x => (⟨matcherName x.2, true⟩ : Ref)).all
        (Ref.holds (accepts (meaningOf rules)) req) = (firstMatched rules req).isNone := by
      rw [Bool.eq_iff_iff]
      simp [Ref.holds, firstMatched]
    rw [find?_cons, hall, hbare, hdefault]
    cases firstMatched rules req with
    | none | some x => rfl
  · rw [if_neg hcond, if_neg]
    · rfl
    · intro hnone
      rw [or_eq_none_iff, or_eq_none_iff, map_eq_none_iff, map_eq_none_iff,
        head?_eq_none_iff] at hnone
      obtain ⟨-, hbare, hdefault⟩ := hnone
      have hmatched : matchedRoutes rules = [] := by
        by_contra hne
        exact hcond ⟨hbare, hdefault, hne⟩
      rcases hsome with hsome | hsome
      · exact hsome (rules_eq_nil hmatched hbare)
      · exact hsome hdefault

theorem verdict_siteStatements (hrules : ∀ r ∈ rules, Writable r) (hsome : rules ≠ [] ∨ default ≠ none)
    (hapart : NamesApart (siteTargets rules default)) (req : Request) :
    verdict (accepts (meaningOf rules)) (siteStatements rules default acme acmeEmail) req =
      some (expected rules default req.path) := by
  have hterminal := find?_terminal acme acmeEmail hrules hsome req
  have hroute := @find?_routes rules default acme acmeEmail hrules req
  rw [verdict, expected_eq, pool_siteStatements]
  cases hbackend : backendFor rules default req.path with
  | none =>
    rw [hbackend] at hterminal
    obtain ⟨r, hr, hstatus⟩ := map_eq_some_iff.mp hterminal
    rw [hr]
    simp only [hstatus]
    rfl
  | some t =>
    rw [hbackend, if_neg (by simp), map_eq_none_iff] at hterminal
    rw [hbackend] at hroute
    obtain ⟨r, hr, hup⟩ := map_eq_some_iff.mp hroute
    rw [hterminal, hr]
    simp only [bind_some, hup, lookup_pools hapart (backendFor_mem hbackend)]
    rfl

end

end Ingress

end Cadish
