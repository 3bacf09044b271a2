import Cadish.Controller.Routing
import Mathlib.Data.List.Dedup

/-!
# The rules of a host

**Of one namespace, all that the Ingresses say of a host counts: the most specific rule, and of two
for the same path that of the older Ingress; else the default backend of the oldest Ingress that has
one and a rule for the host; else 404** (`translateSites_routes`). A host with neither has a site
that cannot be loaded (`evaluate_bareHost`). Fragments that answer and caps are excluded.
-/

namespace Cadish

open List Precedence
open Option (bind_some map_some getD_some)

namespace Ingress

open Controller Cadishfile

variable {host : Str} {new : Str → List Route} {s : Snapshot} {b : UInt8}

/-! ## What the Ingresses say -/

def acceptPath (ing : Object) (p : HTTPPath) : Option Route :=
  (backendTarget ing.ns p.backend).bind fun target =>
    if containsEnvPlaceholder (normalizePath p.path p.type) then none
    else some ⟨normalizePath p.path p.type, p.type, target⟩

def ruleHost (rule : Rule) : Option Str :=
  if normHost rule.host ≠ [] ∧ validIngressHost (normHost rule.host) = true then some (normHost rule.host)
  else none

def ruleRoutes (ing : Object) (rule : Rule) (host : Str) : List Route :=
  if ruleHost rule = some host then (rule.http.getD []).filterMap (acceptPath ing) else []

def Object.declares (ing : Object) (host : Str) : Bool := ing.rules.any fun r => ruleHost r = some host

/-- What the Ingresses say of a host, from the oldest to the youngest. -/
def hostRules (s : Snapshot) (host : Str) : List Route :=
  (sortIngresses s.ingresses).flatMap fun ing => ing.rules.flatMap fun rule => ruleRoutes ing rule host

/-- The default backend of the oldest Ingress that has one and a rule for the host. -/
def defaultFor (s : Snapshot) (host : Str) : Option Target :=
  (sortIngresses s.ingresses).findSome? fun ing =>
    if ing.declares host then ing.defaultBackend.bind (backendTarget ing.ns) else none

/-! ## The merge, without caps -/

variable {ing : Object}

def addRoute (rules : List Route) (r : Route) : List Route :=
  if rules.any (fun q => q.path = r.path ∧ q.pathType = r.pathType) then rules else rules ++ [r]

theorem foldl_addRoute_subset (rules : List Route) : rules.foldl addRoute [] ⊆ rules :=
  foldl_subset_of_append (fun _ _ => ite_eq_or_eq _ _ _) rules

theorem foldl_addRoute_ne_nil {rules : List Route} (h : rules ≠ []) : rules.foldl addRoute [] ≠ [] := by
  rw [← dropLast_concat_getLast h, foldl_append, foldl_cons, foldl_nil, addRoute]
  split
  next hany =>
    intro hnil
    rw [hnil] at hany
    cases hany
  next => simp

theorem leader_foldl_addRoute (rules : List Route) (q : Str) :
    leader Route.AsSpecific ((rules.foldl addRoute []).filter (·.serves q)) =
      leader Route.AsSpecific (rules.filter (·.serves q)) := by
  induction rules using reverseRecOn with
  | nil => rfl
  | append_singleton rules r ih =>
    rw [foldl_append, foldl_cons, foldl_nil, addRoute, filter_append]
    split
    next hseen =>
      obtain ⟨r', hr', heq⟩ := any_eq_true.mp hseen
      obtain ⟨hpath, htype⟩ := of_decide_eq_true heq
      have hserves : r'.serves q = r.serves q := by
        simp only [Route.serves, isCatchAll, hpath, htype]
      by_cases hr : r.serves q = true
      · have hmem : r' ∈ rules.filter (·.serves q) :=
          mem_filter.mpr ⟨foldl_addRoute_subset _ hr', hserves.trans hr⟩
        have hspecific : r'.AsSpecific r := .inr ⟨by simp only [specRank, htype], hpath ▸ le_rfl⟩
        simp only [filter_cons, hr, if_true, filter_nil]
        rw [leader_concat_of_rel hmem hspecific, ih]
      · simp only [filter_cons, hr, Bool.false_eq_true, if_false, filter_nil, append_nil, ih]
    next => rw [filter_append, leader_append, leader_append, ih]

def Merge.Names (m : Merge) (host : Str) : Prop := host ∈ m.entries.map Prod.fst

/-- Rules come to the hosts of a merge, and hosts to the Ingresses. -/
structure Grows (new : Str → List Route) (own : Str × Str → Prop) (m m' : Merge) : Prop where
  routes : ∀ host, m'.routes host = (new host).foldl addRoute (m.routes host)
  owners : ∀ o, o ∈ m'.ownerHosts ↔ o ∈ m.ownerHosts ∨ own o
  entries : m.entries <+: m'.entries
  named : ∀ o, own o → m'.Names o.2

variable {m m' : Merge}

theorem Merge.Names.mono (h : m.Names host) (hle : m.entries <+: m'.entries) : m'.Names host :=
  map_subset _ hle.subset h

theorem Grows.refl (m : Merge) : Grows (fun _ => []) (fun _ => False) m m where
  routes _ := rfl
  owners _ := (or_false _).symm.to_iff
  entries := prefix_refl _
  named _ h := h.elim

variable {new' : Str → List Route} {own own' : Str × Str → Prop}

theorem Grows.trans {m'' : Merge} (h : Grows new own m m') (h' : Grows new' own' m' m'') :
    Grows (fun host => new host ++ new' host) (fun o => own o ∨ own' o) m m'' where
  routes host := by rw [h'.routes, h.routes, foldl_append]
  owners o := by rw [h'.owners, h.owners, or_assoc]
  entries := h.entries.trans h'.entries
  named o ho := ho.elim (fun ho => (h.named o ho).mono h'.entries) (h'.named o)

theorem Grows.congr (h : Grows new own m m') (hnew : ∀ host, new host = new' host)
    (hown : ∀ o, own o ↔ own' o) : Grows new' own' m m' := by
  obtain rfl : new = new' := funext hnew
  obtain rfl : own = own' := funext fun o => propext (hown o)
  exact h

theorem grows_foldl {β : Type} {f : Merge → β → Merge} {new : β → Str → List Route}
    {own : β → Str × Str → Prop} {l : List β} (h : ∀ x ∈ l, ∀ m, Grows (new x) (own x) m (f m x))
    (m : Merge) :
    Grows (fun host => l.flatMap fun x => new x host) (fun o => ∃ x ∈ l, own x o) m (l.foldl f m) := by
  induction l generalizing m with
  | nil =>
    simp only [not_mem_nil, false_and, exists_false]
    exact .refl m
  | cons x l ih =>
    simp only [mem_cons, exists_eq_or_imp]
    exact (h x mem_cons_self m).trans (ih (fun y hy => h y (mem_cons_of_mem x hy)) (f m x))

theorem routes_concat (m : Merge) (host host' : Str) (r : Option Route) :
    Merge.routes { m with entries := m.entries ++ [(host, r)] } host' =
      m.routes host' ++ (if host = host' then r else none).toList := by
  rw [Merge.routes, filterMap_append]
  rfl

theorem Merge.names_concat (m : Merge) (host : Str) (r : Option Route) :
    Merge.Names { m with entries := m.entries ++ [(host, r)] } host := by
  rw [Merge.Names, map_append]
  exact mem_append_right _ (mem_singleton.mpr rfl)

theorem grows_concat {r : Option Route}
    (h : ∀ host', m.routes host' ++ (if host = host' then r else none).toList =
      (new host').foldl addRoute (m.routes host')) :
    Grows new (fun _ => False) m { m with entries := m.entries ++ [(host, r)] } where
  routes host' := (routes_concat m host host' r).trans (h host')
  owners := (Grows.refl m).owners
  entries := prefix_append _ _
  named _ h := h.elim

theorem addPath_eq (caps : Caps) (ing : Object) (host : Str) (p : HTTPPath) (m : Merge) :
    m.addPath caps ing host p = ((acceptPath ing p).bind fun r =>
      if m.seen host r.path r.pathType then none
      else (m.counter.admitRoute caps ing.ns).map fun counter =>
        { m with counter := counter, entries := m.entries ++ [(host, some r)] }).getD m := by
  rw [Merge.addPath, acceptPath]
  cases backendTarget ing.ns p.backend with
  | none => rfl
  | some target =>
    simp only [bind_some]
    split
    · rfl
    · simp only [bind_some]
      split
      · rfl
      · cases m.counter.admitRoute caps ing.ns <;> rfl

def uncapped : Caps := ⟨0, 0, 0⟩

theorem grows_addPath (ing : Object) (host : Str) (p : HTTPPath) (m : Merge) :
    Grows (fun host' => if host = host' then (acceptPath ing p).toList else []) (fun _ => False) m
      (m.addPath uncapped ing host p) := by
  rw [addPath_eq]
  cases acceptPath ing p with
  | none => exact (Grows.refl m).congr (fun host' => (ite_self _).symm) fun _ => Iff.rfl
  | some r =>
    have hadd : ∀ host', (if host = host' then (some r).toList else []).foldl addRoute (m.routes host') =
        if host = host' then
          if m.seen host r.path r.pathType then m.routes host else m.routes host ++ [r]
        else m.routes host' := by
      intro host'
      split
      next heq =>
        rw [heq]
        rfl
      next => rfl
    rw [bind_some]
    by_cases hseen : m.seen host r.path r.pathType = true
    · rw [if_pos hseen]
      refine { Grows.refl m with routes := fun host' => ?_ }
      rw [hadd]
      split
      next heq => exact heq ▸ rfl
      next => rfl
    · rw [if_neg hseen]
      refine grows_concat fun host' => ?_
      rw [hadd]
      split
      next heq => exact heq ▸ rfl
      next => exact append_nil _

theorem grows_ensureHost (m : Merge) (host : Str) :
    Grows (fun _ => []) (fun _ => False) m (m.ensureHost host) ∧ (m.ensureHost host).Names host := by
  rw [Merge.ensureHost]
  by_cases hany : m.entries.any (·.1 = host) = true
  · rw [if_pos hany]
    obtain ⟨e, he, heq⟩ := any_eq_true.mp hany
    exact ⟨.refl m, mem_map.mpr ⟨e, he, of_decide_eq_true heq⟩⟩
  · rw [if_neg hany]
    refine ⟨grows_concat fun host' => ?_, m.names_concat host none⟩
    rw [ite_self, Option.toList_none, append_nil, foldl_nil]

theorem grows_addOwnerHost (ing : Object) (hname : m.Names host) :
    Grows (fun _ => []) (fun o => o = (ing.key, host)) m (m.addOwnerHost ing host) := by
  have hnamed : ∀ o : Str × Str, o = (ing.key, host) → m.Names o.2 := by
    rintro o rfl
    exact hname
  rw [Merge.addOwnerHost]
  by_cases hmem : (ing.key, host) ∈ m.ownerHosts
  · rw [if_pos hmem]
    refine { Grows.refl m with owners := fun o => ⟨.inl, ?_⟩, named := hnamed }
    rintro (ho | rfl)
    · exact ho
    · exact hmem
  · rw [if_neg hmem]
    exact { Grows.refl m with
      owners := fun o => mem_append.trans (or_congr_right mem_singleton), named := hnamed }

theorem grows_addPolicy (ing : Object) (host : Str) (m : Merge) :
    Grows (fun _ => []) (fun _ => False) m (m.addPolicy ing host) := by
  rw [Merge.addPolicy]
  split
  · exact .refl m
  split
  · exact .refl m
  · split
    · exact .refl m
    · exact { Grows.refl m with }

def Merge.addHost (ing : Object) (host : Str) (m : Merge) : Merge :=
  ((m.addPolicy ing host).ensureHost host).addOwnerHost ing host

theorem grows_addHost (ing : Object) (host : Str) (m : Merge) :
    Grows (fun _ => []) (fun o => o = (ing.key, host)) m (m.addHost ing host) := by
  obtain ⟨hensure, hname⟩ := grows_ensureHost (m.addPolicy ing host) host
  refine (((grows_addPolicy ing host m).trans hensure).trans (grows_addOwnerHost ing hname)).congr
    (fun _ => rfl) fun o => ?_
  rw [or_self, false_or]

def Admits (owner : Str → Option Str) (ns : Str) : Prop := ∀ host, (owner host).any (· ≠ ns) = false

theorem addRule_eq {owner : Str → Option Str} (howner : Admits owner ing.ns) (caps : Caps) (rule : Rule)
    (m : Merge) :
    m.addRule owner caps ing rule = ((ruleHost rule).bind fun host =>
      (m.counter.admitHost caps ing.ns host).map fun counter => (rule.http.getD []).foldl
        (Merge.addPath caps ing host) (Merge.addHost ing host { m with counter := counter })).getD m := by
  rw [Merge.addRule, ruleHost]
  by_cases hne : normHost rule.host = []
  · rw [if_pos hne, if_neg fun h => h.1 hne]
    rfl
  rw [if_neg hne]
  cases hvalid : validIngressHost (normHost rule.host) with
  | false =>
    rw [if_pos rfl, if_neg (by simp)]
    rfl
  | true =>
    rw [if_neg (by simp), howner, if_neg Bool.false_ne_true, if_pos ⟨hne, rfl⟩, bind_some]
    cases m.counter.admitHost caps ing.ns (normHost rule.host) <;> rfl

section

variable {owner : Str → Option Str} {ing : Object} (howner : Admits owner ing.ns)

include howner

theorem grows_addRule (rule : Rule) (m : Merge) :
    Grows (ruleRoutes ing rule) (fun o => o.1 = ing.key ∧ ruleHost rule = some o.2) m
      (m.addRule owner uncapped ing rule) := by
  rw [addRule_eq howner]
  cases hrule : ruleHost rule with
  | none =>
    refine (Grows.refl m).congr (fun host => ?_) fun o => ?_
    · rw [ruleRoutes, hrule]
      rfl
    · simp
  | some host =>
    have hpaths := grows_foldl fun p (_ : p ∈ rule.http.getD []) m => grows_addPath ing host p m
    refine ((grows_addHost ing host m).trans (hpaths _)).congr (fun host' => ?_) fun o => ?_
    · rw [ruleRoutes, hrule, filterMap_eq_flatMap_toList]
      by_cases heq : host = host'
      · simp [heq]
      · simp [heq]
    · simp [Prod.ext_iff, eq_comm]

theorem grows_addIngress (m : Merge) :
    Grows (fun host => ing.rules.flatMap fun rule => ruleRoutes ing rule host)
      (fun o => o.1 = ing.key ∧ ing.declares o.2 = true) m (m.addIngress owner uncapped ing) := by
  refine (grows_foldl (fun rule _ m => grows_addRule howner rule m) m).congr (fun _ => rfl) fun o => ?_
  simp only [Object.declares, any_eq_true, decide_eq_true_eq]
  constructor
  · rintro ⟨rule, hmem, hkey, hrule⟩
    exact ⟨hkey, rule, hmem, hrule⟩
  · rintro ⟨hkey, rule, hmem, hrule⟩
    exact ⟨rule, hmem, hkey, hrule⟩

end

theorem mem_sortIngresses {ings : List Object} : ing ∈ sortIngresses ings ↔ ing ∈ ings :=
  mem_insertionSort _

section

variable {s : Snapshot} {ns : Str} (hns : ∀ ing ∈ s.ingresses, ing.ns = ns)

theorem foldl_claim_subset (l : List (Str × Str)) : l.foldl claim [] ⊆ l :=
  foldl_subset_of_append (fun _ _ => ite_eq_or_eq _ _ _) l

include hns in
theorem snd_of_mem_firstClaims {c : Str × Str} (h : c ∈ firstClaims s.ingresses) : c.2 = ns := by
  have hmem := foldl_claim_subset _ h
  simp only [ruleClaims, tlsClaims, mem_append, mem_flatMap, mem_map, mem_sortIngresses] at hmem
  rcases hmem with ⟨ing, hing, h, -, rfl⟩ | ⟨ing, hing, h, -, rfl⟩
  · exact hns ing hing
  · exact hns ing hing

include hns in
theorem admits_routingHostOwner : Admits (routingHostOwner s.ingresses) ns := by
  intro host
  rw [routingHostOwner]
  cases hlookup : (firstClaims s.ingresses).lookup host with
  | none => rfl
  | some owner =>
    have howner : owner = ns := by
      obtain ⟨l, l', heq, -⟩ := lookup_eq_some_iff.mp hlookup
      exact snd_of_mem_firstClaims hns (c := (host, owner)) (heq ▸ by simp)
    simp only [map_some, Option.any_some]
    split
    · simp [howner]
    split
    · simp [howner]
    next w wns hwild =>
      have hw : wns = ns := snd_of_mem_firstClaims hns (c := (w, wns))
        (mem_of_mem_filter (mem_of_find?_eq_some hwild))
      simp [howner, hw]

include hns

theorem grows_merged :
    Grows (hostRules s) (fun o => ∃ ing ∈ s.ingresses, o.1 = ing.key ∧ ing.declares o.2 = true) Merge.empty
      (merged s uncapped) := by
  have hstep : ∀ ing ∈ sortIngresses s.ingresses, ∀ m : Merge,
      Grows (fun host => ing.rules.flatMap fun rule => ruleRoutes ing rule host)
        (fun o => o.1 = ing.key ∧ ing.declares o.2 = true) m
        (m.addIngress (routingHostOwner s.ingresses) uncapped ing) := by
    intro ing hing m
    have hmem := mem_sortIngresses.mp hing
    exact grows_addIngress (hns ing hmem ▸ admits_routingHostOwner hns) m
  refine (grows_foldl hstep Merge.empty).congr (fun _ => rfl) fun o => ?_
  simp only [mem_sortIngresses]

theorem mem_ownerHosts_merged (hing : ing ∈ s.ingresses) (host : Str) :
    (ing.key, host) ∈ (merged s uncapped).ownerHosts ↔ ing.declares host = true := by
  rw [(grows_merged hns).owners]
  constructor
  · rintro (hmem | ⟨ing', hing', hkey, hdeclares⟩)
    · cases hmem
    · exact inj_on_of_nodup_map s.nodup hing hing' hkey ▸ hdeclares
  · exact fun hdeclares => .inr ⟨ing, hing, rfl, hdeclares⟩

theorem hostDefault_merged (host : Str) : hostDefault s (merged s uncapped) host = defaultFor s host := by
  rw [hostDefault, defaultFor]
  rw [← head?_filterMap, ← head?_filterMap]
  congr 1
  refine filterMap_congr fun ing hing => ?_
  simp only [mem_ownerHosts_merged hns (mem_sortIngresses.mp hing) host]

end

/-! ## Caps -/

structure Caps.Fits (caps : Caps) (m : Merge) : Prop where
  sites : caps.maxSites = 0 ∨ (m.entries.map Prod.fst).dedup.length ≤ caps.maxSites
  routes : caps.maxRoutes = 0 ∨ (m.entries.filterMap Prod.snd).length ≤ caps.maxRoutes

theorem Caps.Fits.mono {caps : Caps} (h : caps.Fits m') (hle : m.entries <+: m'.entries) :
    caps.Fits m where
  sites := h.sites.imp_right fun hsites => by
    have hsubset : (m.entries.map Prod.fst).dedup ⊆ (m'.entries.map Prod.fst).dedup := by
      intro host hhost
      rw [mem_dedup] at hhost ⊢
      exact map_subset _ hle.subset hhost
    exact ((nodup_dedup _).subperm hsubset).length_le.trans hsites
  routes := h.routes.imp_right ((hle.sublist.filterMap _).length_le.trans)

/-- A merge that counts for a namespace has the same as one that does not. -/
structure Follows (ns : Str) (m m' : Merge) : Prop where
  same : m = { m' with counter := m.counter }
  routes : m.counter.routes ns ≤ (m'.entries.filterMap Prod.snd).length
  sites : m.counter.sites ns = (m.counter.hostSeen ns).length
  nodup : (m.counter.hostSeen ns).Nodup
  seen : ∀ host ∈ m.counter.hostSeen ns, m'.Names host

theorem Follows.entries {ns : Str} (h : Follows ns m m') : m.entries = m'.entries := by
  rw [h.same]

section

variable {caps : Caps} {ing : Object} {m m' : Merge}

variable {ns : Str}

theorem follows_addPath {p : HTTPPath} (h : Follows ing.ns m m')
    (hfits : caps.Fits (m'.addPath uncapped ing host p)) :
    Follows ing.ns (m.addPath caps ing host p) (m'.addPath uncapped ing host p) := by
  have hsame : ∀ path pt, m.seen host path pt = m'.seen host path pt := by
    intro path pt
    simp only [Merge.seen, Merge.routes, h.entries]
  rw [addPath_eq] at hfits
  rw [addPath_eq, addPath_eq]
  cases haccept : acceptPath ing p with
  | none => exact h
  | some r =>
    rw [haccept, bind_some] at hfits
    simp only [bind_some, hsame]
    by_cases hseen : m'.seen host r.path r.pathType = true
    · rw [if_pos hseen, if_pos hseen]
      exact h
    rw [if_neg hseen] at hfits ⊢
    rw [if_neg hseen]
    have hroom : caps.maxRoutes = 0 ∨ m.counter.routes ing.ns < caps.maxRoutes := by
      refine hfits.routes.imp_right (lt_of_lt_of_le (h.routes.trans_lt ?_))
      simp [CapCounter.admitRoute, uncapped]
    have hadmit : ∃ c, m.counter.admitRoute caps ing.ns = some c ∧ c.sites = m.counter.sites ∧
        c.hostSeen = m.counter.hostSeen ∧ c.routes ing.ns ≤ m.counter.routes ing.ns + 1 := by
      rw [CapCounter.admitRoute]
      by_cases hoff : caps.maxRoutes = 0
      · exact ⟨_, if_pos hoff, rfl, rfl, Nat.le_succ _⟩
      · rw [if_neg hoff, if_neg (hroom.resolve_left hoff).not_ge]
        exact ⟨_, rfl, rfl, rfl, (Function.update_self ..).le⟩
    obtain ⟨c, hc, hsites, hhosts, hroutes⟩ := hadmit
    rw [hc]
    exact {
      same := by rw [h.same]; rfl
      routes := hroutes.trans (by simpa [CapCounter.admitRoute, uncapped] using h.routes)
      sites := by simp only [map_some, getD_some, hsites, hhosts]; exact h.sites
      nodup := by simp only [map_some, getD_some, hhosts]; exact h.nodup
      seen := by
        simp only [map_some, getD_some, hhosts]
        exact fun host' hhost' => (h.seen host' hhost').mono (prefix_append _ _) }

theorem addHost_counter (host : Str) (c : CapCounter) (m : Merge) :
    Merge.addHost ing host { m with counter := c } = { m.addHost ing host with counter := c } := by
  have hpolicy : Merge.addPolicy ing host { m with counter := c } =
      { m.addPolicy ing host with counter := c } := by
    simp only [Merge.addPolicy]
    split_ifs <;> rfl
  have hensure : ∀ m : Merge, Merge.ensureHost host { m with counter := c } =
      { m.ensureHost host with counter := c } := by
    intro m
    simp only [Merge.ensureHost]
    split_ifs <;> rfl
  rw [Merge.addHost, hpolicy, hensure]
  simp only [Merge.addOwnerHost, Merge.addHost]
  split_ifs <;> rfl

theorem Follows.mono {m'' : Merge} (h : Follows ns m m') (hle : m'.entries <+: m''.entries) :
    Follows ns { m'' with counter := m.counter } m'' where
  same := rfl
  routes := h.routes.trans (hle.sublist.filterMap _).length_le
  sites := h.sites
  nodup := h.nodup
  seen host hhost := (h.seen host hhost).mono hle

theorem follows_admitHost (h : Follows ns m m') (hfits : caps.Fits m') (hname : m'.Names host) :
    ∃ c, m.counter.admitHost caps ns host = some c ∧ Follows ns { m' with counter := c } m' := by
  rw [CapCounter.admitHost]
  by_cases hoff : caps.maxSites = 0
  · exact ⟨m.counter, if_pos hoff, h.mono (prefix_refl _)⟩
  rw [if_neg hoff]
  by_cases hseen : host ∈ m.counter.hostSeen ns
  · exact ⟨m.counter, if_pos hseen, h.mono (prefix_refl _)⟩
  have hnodup : (host :: m.counter.hostSeen ns).Nodup := nodup_cons.mpr ⟨hseen, h.nodup⟩
  have hsubset : host :: m.counter.hostSeen ns ⊆ (m'.entries.map Prod.fst).dedup := by
    refine cons_subset.mpr ⟨mem_dedup.mpr hname, fun host' hhost' => ?_⟩
    exact mem_dedup.mpr (h.seen host' hhost')
  have hroom : m.counter.sites ns < caps.maxSites := by
    rw [h.sites]
    exact (hnodup.subperm hsubset).length_le.trans (hfits.sites.resolve_left hoff)
  rw [if_neg hseen, if_neg hroom.not_ge]
  exact ⟨_, rfl, {
    same := rfl
    routes := h.routes
    sites := by simp [h.sites]
    nodup := by simpa using ⟨hseen, h.nodup⟩
    seen := by simpa using ⟨hname, h.seen⟩ }⟩

theorem follows_foldl {β : Type} {f f' : Merge → β → Merge} {l : List β}
    (hgrows : ∀ x ∈ l, ∀ m' : Merge, m'.entries <+: (f' m' x).entries)
    (hstep : ∀ x ∈ l, ∀ {m m'}, Follows ns m m' → caps.Fits (f' m' x) → Follows ns (f m x) (f' m' x))
    (h : Follows ns m m') (hfits : caps.Fits (l.foldl f' m')) :
    Follows ns (l.foldl f m) (l.foldl f' m') := by
  induction l generalizing m m' with
  | nil => exact h
  | cons x l ih =>
    have hrest (m' : Merge) (hl : ∀ y ∈ l, ∀ m' : Merge, m'.entries <+: (f' m' y).entries) :
        m'.entries <+: (l.foldl f' m').entries :=
      foldlRecOn (motive := fun m => m'.entries <+: m.entries) l f' (prefix_refl _) fun m h y hy =>
        h.trans (hl y hy m)
    rw [forall_mem_cons] at hgrows hstep
    exact ih hgrows.2 hstep.2 (hstep.1 h (hfits.mono (hrest _ hgrows.2))) hfits

variable {owner : Str → Option Str} (howner : Admits owner ing.ns)

include howner

theorem follows_addRule {rule : Rule} (h : Follows ing.ns m m')
    (hfits : caps.Fits (m'.addRule owner uncapped ing rule)) :
    Follows ing.ns (m.addRule owner caps ing rule) (m'.addRule owner uncapped ing rule) := by
  rw [addRule_eq howner] at hfits
  rw [addRule_eq howner, addRule_eq howner]
  cases hrule : ruleHost rule with
  | none => exact h
  | some host =>
    rw [hrule] at hfits
    have hpaths : caps.Fits ((rule.http.getD []).foldl (Merge.addPath uncapped ing host)
      (m'.addHost ing host)) := hfits
    have hhost := grows_addHost ing host m'
    have hgrows := grows_foldl (fun p (_ : p ∈ rule.http.getD []) m => grows_addPath ing host p m)
      (m'.addHost ing host)
    obtain ⟨c, hc, hfollows⟩ := follows_admitHost (h.mono hhost.entries) (hpaths.mono hgrows.entries)
      (hhost.named _ rfl)
    have hcount : Merge.addHost ing host { m with counter := c } =
        { m'.addHost ing host with counter := c } := by
      rw [h.same]
      exact addHost_counter host c m'
    rw [bind_some, show m.counter.admitHost caps ing.ns host = some c from hc, map_some, hcount]
    exact follows_foldl (fun p _ m' => (grows_addPath ing host p m').entries)
      (fun p _ _ _ => follows_addPath) hfollows hpaths

theorem follows_addIngress (h : Follows ing.ns m m')
    (hfits : caps.Fits (m'.addIngress owner uncapped ing)) :
    Follows ing.ns (m.addIngress owner caps ing) (m'.addIngress owner uncapped ing) :=
  follows_foldl (fun rule _ m' => (grows_addRule howner rule m').entries)
    (fun _ _ _ _ => follows_addRule howner) h hfits

end

theorem follows_merged {ns : Str} {caps : Caps} (hns : ∀ ing ∈ s.ingresses, ing.ns = ns)
    (hfits : caps.Fits (merged s uncapped)) : Follows ns (merged s caps) (merged s uncapped) := by
  have howner : ∀ ing ∈ sortIngresses s.ingresses,
      ing.ns = ns ∧ Admits (routingHostOwner s.ingresses) ing.ns := by
    intro ing hing
    have heq := hns ing (mem_sortIngresses.mp hing)
    exact ⟨heq, heq ▸ admits_routingHostOwner hns⟩
  refine follows_foldl (fun ing hing m' => (grows_addIngress (howner ing hing).2 m').entries)
    (fun ing hing m m' h hfits => ?_) ⟨rfl, Nat.zero_le _, rfl, nodup_nil, by simp [Merge.empty]⟩ hfits
  obtain ⟨heq, hadmits⟩ := howner ing hing
  exact heq ▸ follows_addIngress hadmits (heq ▸ h) hfits

/-! ## Policies -/

theorem hostPolicy_addPath (caps : Caps) (ing : Object) (host : Str) (p : HTTPPath) (m : Merge) :
    (m.addPath caps ing host p).hostPolicy = m.hostPolicy := by
  rw [addPath_eq]
  cases acceptPath ing p with
  | none => rfl
  | some r =>
    rw [bind_some]
    split
    · rfl
    · cases m.counter.admitRoute caps ing.ns <;> rfl

theorem hostPolicy_addPaths (caps : Caps) (ing : Object) (host : Str) (ps : List HTTPPath) (m : Merge) :
    (ps.foldl (Merge.addPath caps ing host) m).hostPolicy = m.hostPolicy :=
  foldlRecOn (motive := fun m' => m'.hostPolicy = m.hostPolicy) ps _ rfl fun m' h p _ =>
    (hostPolicy_addPath caps ing host p m').trans h

theorem mem_hostPolicy_addHost {e : Str × Str} (h : e ∈ (m.addHost ing host).hostPolicy) :
    e ∈ m.hostPolicy ∨ e = (host, ing.policy) := by
  have howner : ∀ m : Merge, (m.addOwnerHost ing host).hostPolicy = m.hostPolicy := by
    intro m
    rw [Merge.addOwnerHost]
    split <;> rfl
  have hensure : ∀ m : Merge, (m.ensureHost host).hostPolicy = m.hostPolicy := by
    intro m
    rw [Merge.ensureHost]
    split <;> rfl
  rw [Merge.addHost, howner, hensure, Merge.addPolicy] at h
  split_ifs at h
  · exact .inl h
  · exact .inl h
  · exact .inl h
  · exact (mem_append.mp h).imp_right mem_singleton.mp

/-- The policy of a host is one that an Ingress with a rule for the host names. -/
def Merge.Named (s : Snapshot) (m : Merge) : Prop :=
  ∀ e ∈ m.hostPolicy, ∃ ing ∈ s.ingresses, ing.declares e.1 = true ∧ ing.policy = e.2

section

variable {s : Snapshot} {ns : Str} (hns : ∀ ing ∈ s.ingresses, ing.ns = ns)

include hns

theorem named_addRule (hing : ing ∈ s.ingresses) {rule : Rule} (hmem : rule ∈ ing.rules) {m : Merge}
    (h : m.Named s) : (m.addRule (routingHostOwner s.ingresses) uncapped ing rule).Named s := by
  intro e he
  rw [addRule_eq (hns ing hing ▸ admits_routingHostOwner hns)] at he
  cases hhost : ruleHost rule with
  | none =>
    rw [hhost] at he
    exact h e he
  | some host =>
    rw [hhost] at he
    have hadd : e ∈ ((rule.http.getD []).foldl (Merge.addPath uncapped ing host)
      (m.addHost ing host)).hostPolicy := he
    rw [hostPolicy_addPaths] at hadd
    rcases mem_hostPolicy_addHost hadd with hold | rfl
    · exact h e hold
    · exact ⟨ing, hing, any_eq_true.mpr ⟨rule, hmem, decide_eq_true hhost⟩, rfl⟩

theorem named_merged : (merged s uncapped).Named s := by
  refine foldlRecOn (motive := Merge.Named s) _ _ (fun e he => ?_) fun m h ing hing => ?_
  · cases he
  · exact foldlRecOn (motive := Merge.Named s) _ _ h fun m h rule hmem =>
      named_addRule hns (mem_sortIngresses.mp hing) hmem h

end

/-! ## Hosts -/

def isHostByte (b : UInt8) : Bool := isNameByte (lit "-.*") b

theorem isHostByte_of_label {l : Str} (h : validDNSLabel l = true) (hb : b ∈ l) :
    isHostByte b = true := by
  simp only [validDNSLabel, Bool.and_eq_true, all_eq_true] at h
  rw [isHostByte, isNameByte]
  rcases Bool.or_eq_true_iff.mp (h.1.1.2 b hb) with hclass | hdash
  · rcases Bool.or_eq_true_iff.mp hclass with hclass | hclass
    · rw [hclass]
      rfl
    · rw [hclass, Bool.or_true, Bool.true_or]
  · rw [beq_iff_eq.mp hdash]
    decide

theorem isHostByte_of_name {name : Str} (h : (Str.split (Str.byte '.') name).all validDNSLabel = true)
    (hb : b ∈ name) : isHostByte b = true := by
  have hjoin : Str.join (lit ".") (Str.split (Str.byte '.') name) = name := intercalate_splitOn _
  rw [← hjoin] at hb
  rcases Str.mem_join hb with hdot | ⟨l, hl, hb⟩
  · rw [mem_singleton.mp hdot]
    decide
  · exact isHostByte_of_label (all_eq_true.mp h l hl) hb

theorem isHostByte_of_mem (h : validIngressHost host = true) (hb : b ∈ host) : isHostByte b = true := by
  rw [validIngressHost] at h
  split at h
  · cases h
  rw [Bool.and_eq_true] at h
  split at h
  next hwild =>
    obtain ⟨name, rfl⟩ := isPrefixOf_iff_prefix.mp hwild
    have hstar : ∀ b ∈ lit "*.", isHostByte b = true := by decide
    rcases mem_append.mp hb with hb | hb
    · exact hstar b hb
    · exact isHostByte_of_name h.2 hb
  next => exact isHostByte_of_name h.2 hb

theorem plainAddress_of_valid (h : validIngressHost host = true) : PlainAddress host where
  ne_nil := by
    rintro rfl
    cases h
  plain b hb := isPlainByte_of_isNameByte (by decide) (isHostByte_of_mem h hb)
  single hmem := by
    have hbyte := isHostByte_of_mem h hmem
    revert hbyte
    decide
  notDef := by
    rw [isDefName, ← Bool.not_eq_true]
    intro hdef
    obtain ⟨rest, rfl⟩ := isPrefixOf_iff_prefix.mp hdef
    have hbyte := isHostByte_of_mem h (mem_append_left rest (mem_singleton.mpr rfl))
    revert hbyte
    decide

/-! ## The sites -/

theorem ruleHost_eq_some {rule : Rule} (h : ruleHost rule = some host) :
    validIngressHost host = true := by
  obtain ⟨⟨-, hvalid⟩, heq⟩ := Option.ite_none_right_eq_some.mp h
  exact Option.some.inj heq ▸ hvalid

theorem mem_hostRules {r : Route} (h : r ∈ hostRules s host) :
    ∃ ing ∈ s.ingresses, ing.declares host = true := by
  obtain ⟨ing, hing, h⟩ := mem_flatMap.mp h
  obtain ⟨rule, hrule, h⟩ := mem_flatMap.mp h
  refine ⟨ing, mem_sortIngresses.mp hing, any_eq_true.mpr ⟨rule, hrule, ?_⟩⟩
  rw [ruleRoutes] at h
  split at h
  next heq => exact decide_eq_true heq
  next => cases h

theorem defaultFor_eq_some {t : Target} (h : defaultFor s host = some t) :
    ∃ ing ∈ s.ingresses, ing.declares host = true ∧
      ing.defaultBackend.bind (backendTarget ing.ns) = some t := by
  obtain ⟨ing, hing, h⟩ := exists_of_findSome?_eq_some h
  obtain ⟨hdeclares, hdefault⟩ := Option.ite_none_right_eq_some.mp h
  exact ⟨ing, mem_sortIngresses.mp hing, hdeclares, hdefault⟩

theorem validIngressHost_of_declares (h : ing.declares host = true) : validIngressHost host = true := by
  obtain ⟨rule, -, hrule⟩ := any_eq_true.mp h
  exact ruleHost_eq_some (of_decide_eq_true hrule)

theorem writeSite_eq (host : Str) (routes : List Route) (default : Option Target) (acme : Bool)
    (acmeEmail : Str) : writeSite host routes default [] acme acmeEmail =
      generatedSite host (siteStatements routes default acme acmeEmail) := by
  rw [writeSite, if_pos rfl, append_nil, generatedSite, writtenSite, writtenLines, map_map,
    flatMap_map]
  rfl

section

variable {s : Snapshot} {ns host : Str}

def hostTargets (s : Snapshot) (host : Str) : List Target :=
  (hostRules s host).map (·.target) ++ (defaultFor s host).toList

theorem exists_declares (hsome : hostRules s host ≠ [] ∨ defaultFor s host ≠ none) :
    ∃ ing ∈ s.ingresses, ing.declares host = true := by
  rcases hsome with hsome | hsome
  · obtain ⟨r, hr⟩ := exists_mem_of_ne_nil _ hsome
    exact mem_hostRules hr
  · obtain ⟨t, ht⟩ := Option.ne_none_iff_exists'.mp hsome
    obtain ⟨ing, hing, hdeclares, -⟩ := defaultFor_eq_some ht
    exact ⟨ing, hing, hdeclares⟩

theorem lookup_translateSites {loads : Str → Bool} {i : Inputs} (hns : ∀ ing ∈ s.ingresses, ing.ns = ns)
    (hfits : i.caps.Fits (merged s uncapped))
    (hfragment : ∀ ing ∈ s.ingresses, ing.declares host = true →
      policyFragment loads i.caps i.policies (some ing.policy) = [])
    (hdeclares : ∃ ing ∈ s.ingresses, ing.declares host = true) :
    (translateSites loads i s).lookup host = some (generatedSite host (siteStatements
      ((hostRules s host).foldl addRoute []) (defaultFor s host) (i.acmeHosts host) i.acmeEmail)) := by
  have hsame := (follows_merged hns hfits).same
  have hgrows := grows_merged hns
  have hname : host ∈ (merged s i.caps).hosts := by
    obtain ⟨ing, hing, hdeclares⟩ := hdeclares
    rw [hsame, Merge.hosts, mem_insertionSort, mem_dedup]
    exact mem_append_left _ (hgrows.named (ing.key, host) ⟨ing, hing, rfl, hdeclares⟩)
  have hroutes : (merged s i.caps).routes host = (hostRules s host).foldl addRoute [] := by
    rw [hsame]
    exact hgrows.routes host
  have hdefault : hostDefault s (merged s i.caps) host = defaultFor s host := by
    rw [hsame]
    exact hostDefault_merged hns host
  have hpolicy : policyFragment loads i.caps i.policies ((merged s i.caps).hostPolicy.lookup host) = [] := by
    rw [hsame]
    cases hlookup : (merged s uncapped).hostPolicy.lookup host with
    | none => rfl
    | some ref =>
      obtain ⟨l, l', heq, -⟩ := lookup_eq_some_iff.mp hlookup
      obtain ⟨ing, hing, hdeclares, rfl⟩ := named_merged hns (host, ref) (heq ▸ by simp)
      exact hfragment ing hing hdeclares
  rw [translateSites, lookup_graph _ hname, hroutes, hdefault, hpolicy, writeSite_eq]

/-- **A host of one namespace is served as its Ingresses say.** -/
theorem translateSites_routes {g : Grammar} {regexp : Str → Option Pattern}
    (hg : CompilesRequests g.toPatternGrammar regexp) (loads : Str → Bool) (i : Inputs)
    (hns : ∀ ing ∈ s.ingresses, ing.ns = ns) (hfits : i.caps.Fits (merged s uncapped))
    (hfragment : ∀ ing ∈ s.ingresses, ing.declares host = true →
      policyFragment loads i.caps i.policies (some ing.policy) = [])
    (hrules : ∀ r ∈ hostRules s host, Writable r) (hdefault : ∀ t ∈ defaultFor s host, t.Valid)
    (hsome : hostRules s host ≠ [] ∨ defaultFor s host ≠ none) (hapart : NamesApart (hostTargets s host))
    (hemail : i.acmeEmail = [] ∨ Plain i.acmeEmail) (lookup : Environment) :
    (∃ text, (translateSites loads i s).lookup host = some text ∧ ∀ req,
      evaluate g lookup text req = some (expected (hostRules s host) (defaultFor s host) req.path)) ∧
    ∀ t ∈ defaultFor s host, ∃ ing ∈ s.ingresses, ing.declares host = true ∧
      ing.defaultBackend.bind (backendTarget ing.ns) = some t := by
  have hdeclares := exists_declares hsome
  have hmem := foldl_addRoute_subset (hostRules s host)
  have hkept : (hostRules s host).foldl addRoute [] ≠ [] ∨ defaultFor s host ≠ none := by
    exact hsome.imp_left foldl_addRoute_ne_nil
  have hpools : pools (siteTargets ((hostRules s host).foldl addRoute []) (defaultFor s host)) ≠ [] :=
    pools_ne_nil hkept
  have htargets : ∀ t ∈ siteTargets ((hostRules s host).foldl addRoute []) (defaultFor s host),
      t ∈ hostTargets s host := by
    intro t ht
    rcases mem_append.mp ht with ht | ht
    · obtain ⟨r, hr, rfl⟩ := mem_map.mp ht
      exact mem_append_left _ (mem_map_of_mem (hmem ((mem_insertionSort _).mp hr)))
    · exact mem_append_right _ ht
  have haddress : PlainAddress host := by
    obtain ⟨ing, -, hdeclares⟩ := hdeclares
    exact plainAddress_of_valid (validIngressHost_of_declares hdeclares)
  have hwritable : ∀ r ∈ (hostRules s host).foldl addRoute [], Writable r := fun r hr =>
    hrules r (hmem hr)
  obtain ⟨site, hload, hanswer⟩ := loadSite_generated haddress
    (meaning_siteStatements (i.acmeHosts host) i.acmeEmail hg)
    (safe_siteStatements (i.acmeHosts host) i.acmeEmail hwritable hdefault hemail)
    (by rw [pool_siteStatements]; exact nodup_pools _) (by rw [pool_siteStatements]; exact hpools) lookup
  refine ⟨⟨_, lookup_translateSites hns hfits hfragment hdeclares, fun req => ?_⟩,
    fun t ht => defaultFor_eq_some ht⟩
  rw [evaluate, hload, bind_some, hanswer, verdict_siteStatements _ _ hwritable hkept
    (fun t ht t' ht' => hapart t (htargets t ht) t' (htargets t' ht'))]
  simp only [expected, leader_foldl_addRoute]

end

def serviceBackend (svc : Str) (port : Nat) : Backend := ⟨some (svc, ⟨[], port⟩)⟩

def shop : Snapshot where
  ingresses := [⟨lit "shop", lit "web", 0, [], [], some (serviceBackend (lit "fallback") 80),
    [⟨lit "shop.example", some [⟨lit "/img", some .pathPrefix, serviceBackend (lit "images") 80⟩,
      ⟨lit "/cart", some .pathExact, serviceBackend (lit "cart") 8080⟩]⟩], []⟩]
  nodup := nodup_singleton _

def noInputs : Inputs := ⟨fun _ => none, fun _ => false, [], uncapped⟩

theorem translateSites_routes_shop :
    ∃ text, (translateSites (fun _ => true) noInputs shop).lookup (lit "shop.example") = some text ∧
      ∀ req, evaluate (siteGrammar fun _ => none) (fun _ => none) text req =
        some (expected (hostRules shop (lit "shop.example")) (defaultFor shop (lit "shop.example")) req.path) := by
  exact (translateSites_routes (compilesRequests_requestGrammar fun _ => none) (fun _ => true) noInputs
    (show ∀ ing ∈ shop.ingresses, ing.ns = lit "shop" by decide) ⟨.inl rfl, .inl rfl⟩ (fun _ _ _ => rfl)
    (by decide) (by decide) (by decide) (by decide) (.inl rfl) fun _ => none).1

def bare : Snapshot where
  ingresses := [⟨lit "shop", lit "web", 0, [], [], none, [⟨lit "shop.example", none⟩], []⟩]
  nodup := nodup_singleton _

theorem evaluate_bareHost :
    (∀ ing ∈ bare.ingresses, ing.ns = lit "shop" ∧ ing.declares (lit "shop.example") = true) ∧
      ∃ text, (translateSites (fun _ => true) noInputs bare).lookup (lit "shop.example") = some text ∧
        ∀ g lookup req, evaluate g lookup text req = none ∧
          expected (hostRules bare (lit "shop.example")) (defaultFor bare (lit "shop.example")) req.path =
            .status 404 := by
  have htext : (translateSites (fun _ => true) noInputs bare).lookup (lit "shop.example") =
      some (writtenSite (lit "shop.example") []) := by decide
  have haddress : PlainAddress (lit "shop.example") := plainAddress_of_valid (by decide)
  refine ⟨by decide, _, htext, fun g lookup req => ⟨?_, rfl⟩⟩
  have hload : loadSite g lookup (writtenSite (lit "shop.example") []) =
      (compile g [lit "shop.example"] []).bind fun _ => none := by
    rw [loadSite, parse_writtenSite (by simp) haddress]
    rfl
  rw [evaluate, hload]
  cases compile g [lit "shop.example"] [] <;> rfl

end Ingress

end Cadish
