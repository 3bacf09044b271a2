import Cadish.Pipeline.Engine
import Cadish.Pipeline.KeyValues

/-!
# Keys of different recipes

The entries of all recipes of a site are in one store, and a key does not say which tokens its
values are of. So a key of one recipe is a key of another exactly if the two have the same texts in
the same places. `TokenValue.Spells` says what text a value is.
-/

namespace Cadish

open Encoding List Str

/-! ## Cutting a key -/

variable {vs : List Str} (c : MatchContext) (stickyCookie : Str) (toks : List KeyToken)

variable (req : Request) {sep : UInt8} (keep : Str → Bool)

theorem split_join_sep (h : vs ≠ []) : split sep (join [sep] vs) = vs.flatMap (split sep) := by
  induction vs with
  | nil => exact absurd rfl h
  | cons v vs ih =>
    cases vs with
    | nil => simp [join]
    | cons w vs =>
      have hjoin : join [sep] (v :: w :: vs) = v ++ sep :: join [sep] (w :: vs) := by
        simp [join]
      rw [hjoin, split, splitOn_append_cons_self, flatMap_cons, ← ih (cons_ne_nil w vs)]
      rfl

theorem join_sep_eq_iff {vs ws : List Str} (hvs : vs ≠ []) (hws : ws ≠ []) :
    join [sep] vs = join [sep] ws ↔ vs.flatMap (split sep) = ws.flatMap (split sep) := by
  rw [← split_join_sep hvs, ← split_join_sep hws]
  constructor
  · exact fun heq => congrArg (split sep) heq
  · intro heq
    have hback := congrArg (fun pieces => [sep].intercalate pieces) heq
    rwa [split, split, intercalate_splitOn, intercalate_splitOn] at hback

theorem flatMap_split_of_notMem (h : ∀ v ∈ vs, sep ∉ v) : vs.flatMap (split sep) = vs := by
  induction vs with
  | nil => rfl
  | cons v vs ih =>
    obtain ⟨hv, hvs⟩ := forall_mem_cons.mp h
    have hone : split sep v = [v] := by
      refine splitOnP_eq_singleton fun b hb => ?_
      rw [beq_eq_false_iff_ne]
      rintro rfl
      exact hv hb
    rw [flatMap_cons, hone, ih hvs]
    rfl

/-! ## Values as texts -/

/-- Query parameters as a text: sorted by name and value, escaped, joined. -/
def SpellsParams (kvs : Multiset (Str × Str)) (s : Str) : Prop :=
  ∃ ps : List (Str × Str), ps.Pairwise (PairLe (· ≤ ·) (· ≤ ·)) ∧ (ps : Multiset (Str × Str)) = kvs ∧
    s = join (lit "&") (ps.map pairText)

def TokenValue.Spells : TokenValue → Str → Prop
  | .text t, s => s = t
  | .params kvs, s => SpellsParams kvs s
  | .target path kvs, s => ∃ q, SpellsParams kvs q ∧
      s = keyValue path ++ if q = [] then [] else lit "?" ++ q

theorem SpellsParams.unique {kvs : Multiset (Str × Str)} {s t : Str} (hs : SpellsParams kvs s)
    (ht : SpellsParams kvs t) : s = t := by
  obtain ⟨ps, hps, hkvs, rfl⟩ := hs
  obtain ⟨qs, hqs, rfl, rfl⟩ := ht
  have heq : ps = qs := (Multiset.coe_eq_coe.mp hkvs).eq_of_pairwise
    (fun a b _ _ hab hba => hab.antisymm hba) hps hqs
  rw [heq]

theorem TokenValue.Spells.unique {v : TokenValue} {s t : Str} (hs : v.Spells s) (ht : v.Spells t) :
    s = t := by
  cases v with
  | text u => exact Eq.trans hs (Eq.symm ht)
  | params kvs => exact SpellsParams.unique hs ht
  | target path kvs =>
    obtain ⟨q, hq, rfl⟩ := hs
    obtain ⟨q', hq', rfl⟩ := ht
    rw [hq.unique hq']

theorem spellsParams_queryPairs :
    SpellsParams (req.keptPairs keep) (join (lit "&") ((req.queryPairs keep).map pairText)) :=
  ⟨_, sortedPairs_pairwise _ _ (req.query.keys_nodup.filter _) _,
    Multiset.coe_eq_coe.mpr (sortedPairs_perm _ _ _ _), rfl⟩

theorem spellsParams_canonicalQuery :
    SpellsParams (req.keptPairs keep) (canonicalQuery req [] keep) := by
  have hspells := spellsParams_queryPairs req keep
  rw [canonicalQuery_eq]
  split
  next hnil =>
    rw [hnil] at hspells
    exact hspells
  next => exact hspells

theorem spells_writeToken (t : KeyToken) :
    (tokenValue c stickyCookie t).Spells (writeToken c stickyCookie t) := by
  cases t with
  | query | queryAllow | queryStrip => exact spellsParams_canonicalQuery _ _
  | url =>
    refine ⟨_, spellsParams_queryPairs c.req fun _ => true, ?_⟩
    rw [writeToken, canonicalQuery_eq]
    by_cases hnil : (c.req.queryPairs fun _ => true) = []
    · rw [hnil]
      rfl
    · rw [if_neg hnil, if_neg (joinPairs_ne_nil hnil)]
  | _ => rfl

/-! ## Two recipes -/

def Renders (vs : List Str) : Prop :=
  List.Forall₂ (fun t v => (tokenValue c stickyCookie t).Spells v) (recipeTokens toks) vs

theorem renders_map :
    Renders c stickyCookie toks ((recipeTokens toks).map (writeToken c stickyCookie)) := by
  rw [Renders, List.forall₂_map_right_iff, List.forall₂_same]
  exact fun t _ => spells_writeToken c stickyCookie t

variable {c stickyCookie toks} in
theorem Renders.eq (h : Renders c stickyCookie toks vs)
    : vs = (recipeTokens toks).map (writeToken c stickyCookie) := by
  rw [Renders] at h
  generalize recipeTokens toks = ts at h
  induction h with
  | nil => rfl
  | cons ht _ ih => rw [map_cons, ih, ht.unique (spells_writeToken c stickyCookie _)]

theorem recipeTokens_ne_nil : recipeTokens toks ≠ [] := by
  rw [recipeTokens]
  split
  next => exact cons_ne_nil _ _
  next h => exact fun hnil => h (List.isEmpty_iff.mpr hnil)

/-- **When the keys of two requests are the same**, whatever their recipes: the texts of their values
are cut into the same pieces. Where no text has a separator in it, they are the same texts. -/
theorem buildKey_eq_buildKey_iff {c₁ c₂ : MatchContext} {stickyCookie : Str} {toks₁ toks₂ : List KeyToken}
    {vs ws : List Str} (hvs : Renders c₁ stickyCookie toks₁ vs) (hws : Renders c₂ stickyCookie toks₂ ws) :
    buildKey c₁ stickyCookie toks₁ = buildKey c₂ stickyCookie toks₂ ↔
      vs.flatMap (split keyTokenSep) = ws.flatMap (split keyTokenSep) := by
  have hne : ∀ (c : MatchContext) (toks : List KeyToken),
      (recipeTokens toks).map (writeToken c stickyCookie) ≠ [] :=
    fun c toks => map_eq_nil_iff.not.mpr (recipeTokens_ne_nil toks)
  rw [hvs.eq, hws.eq]
  exact join_sep_eq_iff (hne c₁ toks₁) (hne c₂ toks₂)

namespace Pipeline

def twoRecipes : Pipeline :=
  { bare with keyRules :=
      [⟨⟨.scope (some [.headerPresent (lit "X-Tenant")]), none⟩, [.path, .header (lit "X-Tenant")]⟩,
        ⟨⟨.default, none⟩, [.path, .cookie (lit "session")]⟩] }

def ofTenant (name : Str) : Request := Request.get (lit "/a") (Header.set ∅ (lit "X-Tenant") name)

def ofSession (id : Str) : Request :=
  Request.get (lit "/a") (Header.set ∅ (lit "Cookie") (lit "session=" ++ id))

end Pipeline

end Cadish
