import Cadish.Server.Dial
import Cadish.Server.Outbound
import Cadish.Server.Query

/-!
# Rewrites in front of the origin

The `rewrite` rules replace the path, strip parameters and set them, each in what the one before has
left, behind the key. **A rewrite of the path alone writes the query anew**, sorted and escaped, and a
parameter with a broken escape does not come through (`rewrite_reorders`). Beyond that nothing changes
that no rule names (`rewrite_frame`).
-/

namespace Cadish

open Encoding List Option Str

/-! ## A query that is written and read -/

theorem lenientUnescape_escapeByte (b : UInt8) (s : Str) :
    lenientUnescape (escapeByte b ++ s) = b :: lenientUnescape s := by
  rw [escapeByte]
  split_ifs with hkept hspace
  · have hpercent : b ≠ byte '%' := by rintro rfl; exact absurd hkept (by decide)
    have hplus : b ≠ byte '+' := by rintro rfl; exact absurd hkept (by decide)
    show lenientUnescape (b :: s) = _
    conv_lhs => unfold lenientUnescape
    rw [if_neg hpercent, if_neg hplus]
  · conv_lhs => unfold lenientUnescape
    rw [hspace]
    rfl
  · show lenientUnescape (byte '%' :: hexDigit (b / 16) :: hexDigit (b % 16) :: s) = _
    conv_lhs => unfold lenientUnescape
    rw [if_pos rfl]
    dsimp only
    rw [hexVal_hexDigit (nibble_lt b).1, hexVal_hexDigit (nibble_lt b).2]
    simp only [ofNat_nibbles]

theorem lenientUnescape_queryEscape (s : Str) : lenientUnescape (queryEscape s) = s := by
  induction s with
  | nil => rfl
  | cons b s ih =>
    show lenientUnescape (escapeByte b ++ queryEscape s) = _
    rw [lenientUnescape_escapeByte, ih]

theorem lenientPair_pairText (kv : Str × Str) : lenientPair (pairText kv) = kv := by
  have hcut : cut (byte '=') (pairText kv) = some (queryEscape kv.1, queryEscape kv.2) := by
    rw [pairText, append_assoc]
    exact cut_append _ (not_mem_queryEscape (by decide) kv.1)
  rw [lenientPair, cutPair, hcut, getD_some, lenientUnescape_queryEscape, lenientUnescape_queryEscape]

theorem sentPairs_canonicalQuery (req : Request) (keep : Str → Bool) :
    sentPairs (canonicalQuery req [] keep) = req.keptPairs keep := by
  rw [canonicalQuery_eq]
  split
  case isTrue hnil =>
    rw [(req.queryPairs_eq_nil_iff keep).mp hnil]
    rfl
  case isFalse hne =>
    have hsegs : querySegments (join (lit "&") ((req.queryPairs keep).map pairText)) =
        (req.queryPairs keep).map pairText := by
      rw [querySegments, split, splitOn_joinPairs hne]
      exact filter_eq_self.mpr (List.forall_mem_map.mpr fun kv _ => by simp [pairText_ne_nil])
    have hread : lenientPair ∘ pairText = id := funext lenientPair_pairText
    rw [nil_append, sentPairs, hsegs, List.map_map, hread, List.map_id]
    exact Multiset.coe_eq_coe.mpr (sortedPairs_perm _ _ _ _)

theorem count_encodeQuerySorted (query : FinMap Str (List Str)) (k v : Str) :
    (sentPairs (encodeQuerySorted query)).count (k, v) = ((query.lookup k).getD []).count v := by
  let req : Request := { Request.get [] ∅ with query := query }
  have hquery : encodeQuerySorted query = canonicalQuery req [] fun _ => true := by
    simp only [canonicalQuery, encodeQuerySorted, filter_true, nil_append, req]
    split
    case isTrue hnil => rw [hnil]; rfl
    case isFalse => rfl
  rw [hquery, sentPairs_canonicalQuery, req.count_keptPairs]

/-! ## The rules, one after the other -/

namespace RewriteOp

/-- A pattern that does not match leaves the path. -/
def onPath (path : Str) : RewriteOp → Str
  | .path replace => (replace path).getD path
  | _ => path

def onQuery (req : Request) (query : FinMap Str (List Str)) : RewriteOp → FinMap Str (List Str)
  | .path _ => query
  | .stripQuery names => query.filter fun name _ => !names name
  | .setQuery name valueTpl => query.insert name [resolveRewriteValue valueTpl req]

def Names (name : Str) : RewriteOp → Prop
  | .path _ => False
  | .stripQuery names => names name = true
  | .setQuery name' _ => name = name'

theorem lookup_onQuery {name : Str} {op : RewriteOp} (h : ¬op.Names name) (req : Request)
    (query : FinMap Str (List Str)) : (op.onQuery req query).lookup name = query.lookup name := by
  cases op with
  | path replace => rfl
  | stripQuery names =>
    have hkept : names name = false := by simpa [Names] using h
    simp only [onQuery, FinMap.lookup_filter, hkept]
    cases query.lookup name <;> rfl
  | setQuery name' valueTpl => exact AList.lookup_insert_ne h

end RewriteOp

namespace RewriteRule

variable (c : MatchContext)

def pathStep (path : Str) (r : RewriteRule) : Str :=
  if c.scopeMatches r.scope then r.op.onPath path else path

def queryStep (query : FinMap Str (List Str)) (r : RewriteRule) : FinMap Str (List Str) :=
  if c.scopeMatches r.scope then r.op.onQuery c.req query else query

theorem step_spec (s : RewriteState) (r : RewriteRule) :
    (step c s r).path = pathStep c s.path r ∧
      (step c s r).query.getD c.req.query = queryStep c (s.query.getD c.req.query) r ∧
      ((step c s r).matched = false → step c s r = s) := by
  rw [step, pathStep, queryStep]
  split
  case isFalse => exact ⟨rfl, rfl, fun _ => rfl⟩
  case isTrue =>
    cases r.op with
    | path replace => cases h : replace s.path <;> simp [RewriteOp.onPath, RewriteOp.onQuery, h]
    | stripQuery | setQuery => exact ⟨rfl, rfl, fun h => by cases h⟩

theorem foldl_step (rules : List RewriteRule) (s : RewriteState) :
    (rules.foldl (step c) s).path = rules.foldl (pathStep c) s.path ∧
      (rules.foldl (step c) s).query.getD c.req.query =
        rules.foldl (queryStep c) (s.query.getD c.req.query) ∧
      ((rules.foldl (step c) s).matched = false → rules.foldl (step c) s = s) := by
  induction rules generalizing s with
  | nil => exact ⟨rfl, rfl, fun _ => rfl⟩
  | cons r rules ih =>
    obtain ⟨hpath, hquery, hsame⟩ := step_spec c s r
    obtain ⟨hpaths, hqueries, hsames⟩ := ih (step c s r)
    simp only [foldl_cons, ← hpath, ← hquery]
    refine ⟨hpaths, hqueries, fun hmatched => ?_⟩
    have hrest := hsames hmatched
    rw [hrest] at hmatched ⊢
    exact hsame hmatched

variable {c} {rules : List RewriteRule} {query : FinMap Str (List Str)}

theorem lookup_foldl_queryStep {name : Str}
    (h : ∀ r ∈ rules, c.scopeMatches r.scope = true → ¬r.op.Names name) :
    (rules.foldl (queryStep c) query).lookup name = query.lookup name := by
  refine foldlRecOn (motive := fun q : FinMap _ _ => q.lookup name = query.lookup name) rules _ rfl
    fun q hq r hr => ?_
  rw [← hq, queryStep]
  split
  case isTrue hscope => exact RewriteOp.lookup_onQuery (h r hr hscope) c.req q
  case isFalse => rfl

theorem foldl_queryStep_of_path
    (h : ∀ r ∈ rules, c.scopeMatches r.scope = true → ∃ replace, r.op = .path replace) :
    rules.foldl (queryStep c) query = query := by
  refine foldlRecOn (motive := (· = query)) rules _ rfl fun q hq r hr => ?_
  rw [hq, queryStep]
  split
  case isTrue hscope =>
    obtain ⟨replace, hop⟩ := h r hr hscope
    rw [hop]
    rfl
  case isFalse => rfl

end RewriteRule

/-! ## The frame -/

/-- `EvalRequest`: the key, and the rewrite. -/
def Pipeline.keyed (p : Pipeline) (e : OriginEdits) (tls : Bool) (req : Request) :
    Str × Option RewriteDecision :=
  ((p.evalRequest req).cacheKey, (p.originEffects e tls req).2)

theorem evalRewrite_cases (rules : List RewriteRule) (c : MatchContext) :
    (evalRewrite rules c = none ∧ rules.foldl (RewriteRule.pathStep c) c.req.path = c.req.path) ∨
      evalRewrite rules c = some ⟨rules.foldl (RewriteRule.pathStep c) c.req.path,
        encodeQuerySorted (rules.foldl (RewriteRule.queryStep c) c.req.query)⟩ := by
  obtain ⟨hpath, hquery, hsame⟩ := RewriteRule.foldl_step c rules ⟨c.req.path, none, false⟩
  rw [evalRewrite]
  split
  case isTrue => exact .inr (by rw [hpath, hquery]; rfl)
  case isFalse hno =>
    rw [hsame (Bool.not_eq_true _ ▸ hno)] at hpath
    exact .inl ⟨rfl, hpath.symm⟩

/-- **What a rewrite leaves alone.** Without a rule for the query that applies, the query is the
client's byte for byte exactly if no path was replaced or the query is written as the encoder writes
it; a parameter that no rule names keeps a value exactly if it has no broken escape; the rules apply
in their order; and the key has no part in it. -/
theorem rewrite_frame (rules : List RewriteRule) (c : MatchContext) (raw : Str)
    (hquery : c.req.query = parseQueryLossless raw) :
    let sent := originTarget c.req.path raw (evalRewrite rules c)
    ((∀ r ∈ rules, c.scopeMatches r.scope = true → ∃ replace, r.op = .path replace) →
      (sent.2 = raw ↔ evalRewrite rules c = none ∨ encodeQuerySorted c.req.query = raw)) ∧
    (∀ name, (∀ r ∈ rules, c.scopeMatches r.scope = true → ¬r.op.Names name) → ∀ v,
      ((sentPairs sent.2).count (name, v) = (sentPairs raw).count (name, v) ↔
        evalRewrite rules c = none ∨ (name, v) ∉ omittedPairs raw)) ∧
    sent.1 = rules.foldl (RewriteRule.pathStep c) c.req.path ∧
    (evalRewrite rules c ≠ none → ∀ name v, (sentPairs sent.2).count (name, v) =
      (((rules.foldl (RewriteRule.queryStep c) c.req.query).lookup name).getD []).count v) ∧
    ∀ (p : Pipeline) (e : OriginEdits) (tls : Bool) (req : Request),
      (p.keyed { e with rewriteRules := rules } tls req).1 = (p.keyed e tls req).1 := by
  obtain ⟨h, hpath⟩ | h := evalRewrite_cases rules c <;> rw [h]
  · exact ⟨fun _ => by simp [originTarget], fun _ _ _ => by simp [originTarget], hpath.symm,
      fun hne => absurd rfl hne, fun _ _ _ _ => rfl⟩
  refine ⟨fun hpaths => ?_, fun name hnames v => ?_, rfl, fun _ => count_encodeQuerySorted _,
    fun _ _ _ _ => rfl⟩
  · rw [RewriteRule.foldl_queryStep_of_path hpaths]
    simp [originTarget]
  · have hsent : (sentPairs raw).count (name, v) =
        ((c.req.query.lookup name).getD []).count v + (omittedPairs raw).count (name, v) := by
      rw [sentPairs_eq, Multiset.count_add, count_parsedPairs, hquery]
    simp only [originTarget, count_encodeQuerySorted, RewriteRule.lookup_foldl_queryStep hnames, hsent,
      ← Multiset.count_eq_zero]
    simp

def movedPath : RewriteRule := ⟨none, .path fun _ => some (lit "/new")⟩

def withoutUtm : RewriteRule := ⟨none, .stripQuery (· == lit "utm")⟩

theorem rewrite_frame_sorted :
    (originTarget (lit "/p") (lit "a=2&b=1")
      (evalRewrite [movedPath] (queryOf "a=2&b=1"))).2 = lit "a=2&b=1" := by
  refine ((rewrite_frame [movedPath] (queryOf "a=2&b=1") (lit "a=2&b=1") (queryOf_query _)).1 ?_).mpr
    (.inr (by decide +kernel))
  exact forall_mem_singleton.mpr fun _ => ⟨_, rfl⟩

/-- **A new path, and the query is sorted.** Behind a rule that strips another parameter, one with a
broken escape is gone. -/
theorem rewrite_reorders :
    originTarget (lit "/p") (lit "b=1&a=2") (evalRewrite [movedPath] (queryOf "b=1&a=2")) =
      (lit "/new", lit "a=2&b=1") ∧
    originTarget (lit "/p") (lit "utm=1&x=%zz") (evalRewrite [withoutUtm] (queryOf "utm=1&x=%zz")) =
      (lit "/p", []) := by
  decide +kernel

end Cadish
