import Cadish.Lib.Encoding
import Cadish.Pipeline.CacheKey

/-!
# What a key says

Two requests should have one key exactly when they agree on every token of the recipe. **The `url`
token is the exception** (`buildKey_names_values_iff`): the path `/a?b=1` without a query and the
path `/a` with the query `b=1` are written alike.
-/

namespace Cadish

open Encoding List Str Request

variable {b : UInt8} {c₁ c₂ : MatchContext}

/-! ## Escaped text -/

def escapeByte (b : UInt8) : Str :=
  if queryEscape.isUnreserved b then [b]
  else if b = 0x20 then lit "+"
  else [byte '%', hexDigit (b / 16), hexDigit (b % 16)]

/-- The first byte of an escaped text, and the rest of it. -/
def unescapeHead : Str → UInt8 × Str
  | [] => (0, [])
  | b :: s =>
    if b = byte '+' then (0x20, s)
    else if b = byte '%' then
      (hexValue (s.headD 0) * 16 + hexValue (s.tail.headD 0), s.drop 2)
    else (b, s)
where
  hexValue (d : UInt8) : UInt8 := if d < 58 then d - 48 else d - 55

theorem hexValue_hexDigit {n : UInt8} (h : n < 16) : unescapeHead.hexValue (hexDigit n) = n := by
  grind [unescapeHead.hexValue, hexDigit]

theorem nibble_lt (b : UInt8) : b / 16 < 16 ∧ b % 16 < 16 := by
  have := b.toNat_lt
  simp only [UInt8.lt_iff_toNat_lt]
  simp at *
  omega

theorem nibbles_eq (b : UInt8) : b / 16 * 16 + b % 16 = b := by
  have := b.toNat_lt
  rw [← UInt8.toNat_inj]
  simp at *
  omega

theorem unescapeHead_escapeByte (b : UInt8) (s : Str) : unescapeHead (escapeByte b ++ s) = (b, s) := by
  rw [escapeByte]
  split_ifs with hu hspace
  · have hplus : b ≠ byte '+' := by rintro rfl; exact absurd hu (by decide)
    have hpercent : b ≠ byte '%' := by rintro rfl; exact absurd hu (by decide)
    simp [unescapeHead, hplus, hpercent]
  · rw [hspace]
    rfl
  · have hval : unescapeHead.hexValue (hexDigit (b / 16)) * 16 +
        unescapeHead.hexValue (hexDigit (b % 16)) = b := by
      rw [hexValue_hexDigit (nibble_lt b).1, hexValue_hexDigit (nibble_lt b).2, nibbles_eq]
    exact Prod.ext hval rfl

theorem escapeByte_headed : Headed escapeByte where
  ne_nil b := by
    rw [escapeByte]
    split_ifs
    · exact cons_ne_nil _ _
    · exact cons_ne_nil _ _
    · exact cons_ne_nil _ _
  head a b x y h := by
    have hread := congrArg unescapeHead h
    rw [unescapeHead_escapeByte, unescapeHead_escapeByte] at hread
    exact ⟨congrArg Prod.fst hread, congrArg Prod.snd hread⟩

theorem queryEscape_injective : Function.Injective queryEscape := escapeByte_headed.flatMap_injective

theorem isUnreserved_hexDigit {n : UInt8} (h : n < 16) :
    queryEscape.isUnreserved (hexDigit n) = true := by
  have hlt : (n < 10 ∧ hexDigit n = n + 48) ∨ (10 ≤ n ∧ hexDigit n = n + 55) := by
    rw [hexDigit]
    split
    case isTrue hn => exact .inl ⟨hn, rfl⟩
    case isFalse hn => exact .inr ⟨UInt8.not_lt.mp hn, rfl⟩
  rw [queryEscape.isUnreserved]
  obtain ⟨hn, heq⟩ | ⟨hn, heq⟩ := hlt
  · rw [heq]
    have : 0x30 ≤ n + 48 ∧ n + 48 ≤ 0x39 := by
      simp only [UInt8.lt_iff_toNat_lt, UInt8.le_iff_toNat_le] at *
      simp at *
      omega
    simp [this.1, this.2]
  · rw [heq]
    have : 0x41 ≤ n + 55 ∧ n + 55 ≤ 0x5a := by
      simp only [UInt8.lt_iff_toNat_lt, UInt8.le_iff_toNat_le] at *
      simp at *
      omega
    simp [this.1, this.2]

theorem mem_queryEscape {s : Str} (h : b ∈ queryEscape s) :
    queryEscape.isUnreserved b = true ∨ b = byte '+' ∨ b = byte '%' := by
  obtain ⟨a, -, hb⟩ := mem_flatMap.mp h
  split_ifs at hb with hu
  · obtain rfl : b = a := mem_singleton.mp hb
    exact .inl hu
  · exact .inr (.inl (mem_singleton.mp hb))
  simp only [mem_cons, not_mem_nil, or_false] at hb
  obtain rfl | rfl | rfl := hb
  · exact .inr (.inr rfl)
  · exact .inl (isUnreserved_hexDigit (nibble_lt a).1)
  · exact .inl (isUnreserved_hexDigit (nibble_lt a).2)

theorem not_mem_queryEscape
    (hb : queryEscape.isUnreserved b = false ∧ b ≠ byte '+' ∧ b ≠ byte '%') (s : Str) :
    b ∉ queryEscape s := by
  obtain ⟨hu, hplus, hpercent⟩ := hb
  intro hm
  obtain h | h | h := mem_queryEscape hm
  · exact absurd h (by simp [hu])
  · exact hplus h
  · exact hpercent h

/-! ## Canonical queries -/

variable (req : Request) (r₁ r₂ : Request) (keep : Str → Bool)

def Request.keptPairs : Multiset (Str × Str) :=
  pairs (req.query.keys.filter keep) fun k => (req.query.lookup k).getD []

/-- The parameters that pass the test, in the order they are written. -/
def Request.queryPairs : List (Str × Str) :=
  sortedPairs (· ≤ ·) (· ≤ ·) (req.query.keys.filter keep) fun k => (req.query.lookup k).getD []

variable (c : MatchContext) (lead : Str) {ps : List (Str × Str)} (kv : Str × Str)

def pairText : Str := queryEscape kv.1 ++ lit "=" ++ queryEscape kv.2

theorem Request.queryPairs_eq_iff :
    r₁.queryPairs keep = r₂.queryPairs keep ↔ r₁.keptPairs keep = r₂.keptPairs keep :=
  sortedPairs_eq_iff _ _ (r₁.query.keys_nodup.filter _) (r₂.query.keys_nodup.filter _) _ _

theorem Request.queryPairs_eq_nil_iff :
    req.queryPairs keep = [] ↔ req.keptPairs keep = 0 := by
  rw [← Multiset.coe_eq_zero]
  exact iff_of_eq (congrArg (· = 0) (Multiset.coe_eq_coe.mpr (sortedPairs_perm _ _ _ _)))

theorem canonicalQuery_eq (keep : Str → Bool) :
    canonicalQuery req lead keep =
      if req.queryPairs keep = [] then []
      else lead ++ join (lit "&") ((req.queryPairs keep).map pairText) := by
  have hmap : (req.queryPairs keep).map pairText =
      ((req.query.keys.filter keep).insertionSort fun a b => a ≤ b).flatMap fun k =>
        (((req.query.lookup k).getD []).insertionSort fun a b => a ≤ b).map fun v =>
          queryEscape k ++ lit "=" ++ queryEscape v := by
    simp only [queryPairs, sortedPairs, pairs, map_flatMap, List.map_map]
    rfl
  simp only [canonicalQuery, ← hmap, map_eq_nil_iff]

theorem pairText_injective : Function.Injective pairText := by
  intro kv kv' h
  have hsep := not_mem_queryEscape (b := byte '=') (by decide)
  simp only [pairText, append_assoc] at h
  obtain ⟨hk, hv⟩ := append_cons_inj (hsep kv.1) (hsep kv'.1) h
  exact Prod.ext (queryEscape_injective hk) (queryEscape_injective hv)

theorem not_mem_pairText (hb : queryEscape.isUnreserved b = false ∧ b ≠ byte '+' ∧ b ≠ byte '%')
    (heq : b ≠ byte '=') (kv : Str × Str) : b ∉ pairText kv := by
  intro hm
  simp only [pairText, mem_append, not_mem_queryEscape hb, false_or, or_false] at hm
  exact heq (mem_singleton.mp hm)

theorem splitOn_joinPairs (h : ps ≠ []) :
    (join (lit "&") (ps.map pairText)).splitOn (byte '&') = ps.map pairText := by
  refine splitOn_intercalate (byte '&') (fun x hx => ?_) (by simpa using h)
  obtain ⟨kv, -, rfl⟩ := List.mem_map.mp hx
  exact not_mem_pairText (by decide) (by decide) kv

theorem joinPairs_injective {qs : List (Str × Str)} (hps : ps ≠ []) (hqs : qs ≠ [])
    (h : join (lit "&") (ps.map pairText) = join (lit "&") (qs.map pairText)) : ps = qs := by
  have hmap := (splitOn_joinPairs hps).symm.trans ((congrArg _ h).trans (splitOn_joinPairs hqs))
  exact map_injective_iff.mpr pairText_injective hmap

theorem pairText_ne_nil : pairText kv ≠ [] := by
  simp [pairText, lit]

theorem joinPairs_ne_nil (h : ps ≠ []) : join (lit "&") (ps.map pairText) ≠ [] := by
  obtain ⟨kv, rest, rfl⟩ := exists_cons_of_ne_nil h
  cases rest with
  | nil => simpa [join] using pairText_ne_nil kv
  | cons kv' rest =>
    simp only [join]
    simp [pairText_ne_nil kv]

theorem canonicalQuery_eq_nil_iff (keep : Str → Bool) :
    canonicalQuery req lead keep = [] ↔ req.keptPairs keep = 0 := by
  rw [canonicalQuery_eq, ← queryPairs_eq_nil_iff]
  split
  case isTrue h => simp [h]
  case isFalse h => simp [h, joinPairs_ne_nil h]

theorem canonicalQuery_eq_iff (keep : Str → Bool) :
    canonicalQuery r₁ lead keep = canonicalQuery r₂ lead keep ↔
      r₁.keptPairs keep = r₂.keptPairs keep := by
  rw [← queryPairs_eq_iff]
  constructor
  · intro h
    by_cases h₁ : r₁.queryPairs keep = []
    · have h₂ : r₂.queryPairs keep = [] := by
        rw [queryPairs_eq_nil_iff, ← canonicalQuery_eq_nil_iff _ lead] at h₁ ⊢
        exact h.symm.trans h₁
      rw [h₁, h₂]
    · have h₂ : r₂.queryPairs keep ≠ [] := by
        rw [queryPairs_eq_nil_iff, ← canonicalQuery_eq_nil_iff _ lead, h,
          canonicalQuery_eq_nil_iff, ← queryPairs_eq_nil_iff] at h₁
        exact h₁
      rw [canonicalQuery_eq, canonicalQuery_eq, if_neg h₁, if_neg h₂] at h
      exact joinPairs_injective h₁ h₂ (append_cancel_left h)
  · intro h
    rw [canonicalQuery_eq, canonicalQuery_eq, h]

theorem not_mem_joinPairs
    (hb : queryEscape.isUnreserved b = false ∧ b ≠ byte '+' ∧ b ≠ byte '%')
    (heq : b ≠ byte '=') (hamp : b ≠ byte '&') (ps : List (Str × Str)) :
    b ∉ join (lit "&") (ps.map pairText) := by
  intro hm
  obtain hm | ⟨x, hx, hm⟩ := mem_join hm
  · exact hamp (mem_singleton.mp hm)
  · obtain ⟨kv, -, rfl⟩ := List.mem_map.mp hx
    exact not_mem_pairText hb heq kv hm

theorem sep_not_mem_keyValue (s : Str) : keyTokenSep ∉ keyValue s := by
  simp [keyValue]

theorem canonicalQuery_plain {lead : Str} (hlead : keyTokenSep ∉ lead)
    (keep : Str → Bool) : keyTokenSep ∉ canonicalQuery req lead keep := by
  rw [canonicalQuery_eq]
  split
  · exact not_mem_nil
  · intro hm
    obtain hm | hm := mem_append.mp hm
    · exact hlead hm
    · exact not_mem_joinPairs (by decide) (by decide) (by decide) _ hm

/-! ## The values of a recipe -/

inductive TokenValue where
  | text (s : Str)
  | params (kvs : Multiset (Str × Str))
  | target (path : Str) (kvs : Multiset (Str × Str))

def tokenValue (stickyCookie : Str) : KeyToken → TokenValue
  | .method => .text c.req.effMethod
  | .host => .text c.req.normHost
  | .path => .text (keyValue c.req.path)
  | .url => .target c.req.path (c.req.keptPairs fun _ => true)
  | .query => .params (c.req.keptPairs fun _ => true)
  | .queryAllow names => .params (c.req.keptPairs names)
  | .queryStrip names => .params (c.req.keptPairs fun k => !names k)
  | .header name => .text (keyValue (c.req.header.combined name))
  | .cookie name => .text (keyValue (c.req.cookie name))
  | .sticky =>
    .text (if stickyCookie ≠ [] ∧ c.req.cookie stickyCookie ≠ [] then
      keyValue (c.req.cookie stickyCookie)
    else c.req.clientIP)
  | .device => .text c.req.device
  | .geo => .text c.req.geo
  | .geoContinent => .text c.req.geoContinent
  | .geoRegion => .text c.req.geoRegion
  | .normalize n => .text (n.resolve c.req)
  | .classify cl => .text (cl.resolve c)
  | .tenant name => .text name
  | .tenantFrom t => .text (t.resolve c.req)
  | .literal text => .text text

def KeyToken.Resolved : KeyToken → Prop
  | .method => keyTokenSep ∉ c.req.effMethod
  | .host => keyTokenSep ∉ c.req.normHost
  | .sticky => keyTokenSep ∉ c.req.clientIP
  | .device => keyTokenSep ∉ c.req.device
  | .geo => keyTokenSep ∉ c.req.geo
  | .geoContinent => keyTokenSep ∉ c.req.geoContinent
  | .geoRegion => keyTokenSep ∉ c.req.geoRegion
  | .normalize n => keyTokenSep ∉ n.resolve c.req
  | .classify cl => keyTokenSep ∉ cl.resolve c
  | .tenant name => keyTokenSep ∉ name
  | .tenantFrom t => keyTokenSep ∉ t.resolve c.req
  | _ => True

theorem KeyToken.Resolved.sep_not_mem {c : MatchContext} {t : KeyToken} (h : t.Resolved c)
    (stickyCookie : Str) :
    (∃ text, t = .literal text) ∨ keyTokenSep ∉ writeToken c stickyCookie t := by
  cases t with
  | literal text => exact .inl ⟨text, rfl⟩
  | path | header name | cookie name => exact .inr (sep_not_mem_keyValue _)
  | url =>
    simp only [writeToken, mem_append, not_or]
    exact .inr ⟨sep_not_mem_keyValue _, canonicalQuery_plain _ (by decide) _⟩
  | query | queryAllow names | queryStrip names =>
    exact .inr (canonicalQuery_plain _ not_mem_nil _)
  | sticky =>
    simp only [writeToken]
    split
    · exact .inr (sep_not_mem_keyValue _)
    · exact .inr h
  | _ => exact .inr h

theorem writeToken_eq_of_separable {stickyCookie : Str} {toks : List KeyToken}
    (h : ∀ t ∈ recipeTokens toks, writeToken c₁ stickyCookie t = writeToken c₂ stickyCookie t ∨
      (keyTokenSep ∉ writeToken c₁ stickyCookie t ∧ keyTokenSep ∉ writeToken c₂ stickyCookie t))
    (heq : buildKey c₁ stickyCookie toks = buildKey c₂ stickyCookie toks) :
    ∀ t ∈ recipeTokens toks, writeToken c₁ stickyCookie t = writeToken c₂ stickyCookie t := by
  have hwords : List.Forall₂ (fun x y => x = y ∨ (keyTokenSep ∉ x ∧ keyTokenSep ∉ y))
      ((recipeTokens toks).map (writeToken c₁ stickyCookie))
      ((recipeTokens toks).map (writeToken c₂ stickyCookie)) := by
    rw [List.forall₂_map_left_iff, List.forall₂_map_right_iff, List.forall₂_same]
    exact h
  exact map_inj_left.mp (join_inj hwords heq)

theorem buildKey_eq_iff {stickyCookie : Str} {toks : List KeyToken}
    (h₁ : ∀ t ∈ recipeTokens toks, t.Resolved c₁) (h₂ : ∀ t ∈ recipeTokens toks, t.Resolved c₂) :
    buildKey c₁ stickyCookie toks = buildKey c₂ stickyCookie toks ↔
      ∀ t ∈ recipeTokens toks, writeToken c₁ stickyCookie t = writeToken c₂ stickyCookie t := by
  constructor
  · refine writeToken_eq_of_separable fun t ht => ?_
    obtain ⟨text, rfl⟩ | hsep₁ := (h₁ t ht).sep_not_mem stickyCookie
    · exact .inl rfl
    · obtain ⟨text, rfl⟩ | hsep₂ := (h₂ t ht).sep_not_mem stickyCookie
      · exact .inl rfl
      · exact .inr ⟨hsep₁, hsep₂⟩
  · intro hall
    rw [buildKey, buildKey, map_inj_left.mpr hall]

theorem writeToken_eq_iff (c₁ c₂ : MatchContext) (stickyCookie : Str) {t : KeyToken}
    (ht : t ≠ .url) : writeToken c₁ stickyCookie t = writeToken c₂ stickyCookie t ↔
      tokenValue c₁ stickyCookie t = tokenValue c₂ stickyCookie t := by
  cases t with
  | url => exact absurd rfl ht
  | query => simp only [tokenValue, TokenValue.params.injEq, writeToken, canonicalQuery_eq_iff]
  | queryAllow names | queryStrip names =>
    simp only [tokenValue, TokenValue.params.injEq, writeToken, canonicalQuery_eq_iff]
  | _ => simp only [tokenValue, TokenValue.text.injEq, writeToken]

/-! ## The `url` token -/

/-- The first request has no query, and its path spells out the path and the query of the
second. -/
def SpellsOut (r r' : Request) : Prop :=
  r.keptPairs (fun _ => true) = 0 ∧ r'.keptPairs (fun _ => true) ≠ 0 ∧
    keyValue r.path = keyValue r'.path ++ canonicalQuery r' (lit "?") fun _ => true

/-- Two targets that differ and are written alike. -/
def UrlClash : Prop :=
  (r₁.path ≠ r₂.path ∧ keyValue r₁.path = keyValue r₂.path ∧
    r₁.keptPairs (fun _ => true) = r₂.keptPairs fun _ => true) ∨
  SpellsOut r₁ r₂ ∨ SpellsOut r₂ r₁

theorem append_tail_eq {mark : UInt8} {p q p' q' : Str}
    (hq : q = [] ∨ ∃ s, q = mark :: s ∧ mark ∉ s) (hq' : q' = [] ∨ ∃ s, q' = mark :: s ∧ mark ∉ s)
    (h : p ++ q = p' ++ q') :
    (p = p' ∧ q = q') ∨ (q = [] ∧ q' ≠ [] ∧ p = p' ++ q') ∨ (q' = [] ∧ q ≠ [] ∧ p' = p ++ q) := by
  have overlap {x y u v : Str} (hu : u = [] ∨ ∃ s, u = mark :: s ∧ mark ∉ s)
      (hv : v = [] ∨ ∃ s, v = mark :: s ∧ mark ∉ s) {mid : Str} (hy : y = x ++ mid)
      (huv : u = mid ++ v) : (x = y ∧ u = v) ∨ (v = [] ∧ u ≠ [] ∧ y = x ++ u) := by
    cases mid with
    | nil => exact .inl ⟨by simpa using hy.symm, huv⟩
    | cons b mid =>
      obtain rfl | ⟨s, rfl, hs⟩ := hu
      · cases huv
      · obtain ⟨rfl, rfl⟩ := cons.inj huv
        obtain rfl | ⟨s', rfl, -⟩ := hv
        · exact .inr ⟨rfl, cons_ne_nil _ _, by simpa using hy⟩
        · exact absurd (mem_append_right mid mem_cons_self) hs
  obtain ⟨mid, hp', hqq⟩ | ⟨mid, hp, hqq⟩ := append_eq_append_iff.mp h
  · obtain h | h := overlap hq hq' hp' hqq
    · exact .inl h
    · exact .inr (.inr h)
  · obtain ⟨hpp, hqq⟩ | h := overlap hq' hq hp hqq
    · exact .inl ⟨hpp.symm, hqq.symm⟩
    · exact .inr (.inl h)

theorem canonicalQuery_shape :
    canonicalQuery req (lit "?") keep = [] ∨
      ∃ s, canonicalQuery req (lit "?") keep = byte '?' :: s ∧ byte '?' ∉ s := by
  rw [canonicalQuery_eq]
  split
  · exact .inl rfl
  · exact .inr ⟨_, rfl, not_mem_joinPairs (by decide) (by decide) (by decide) _⟩

theorem writeToken_url_eq_iff (c₁ c₂ : MatchContext) (stickyCookie : Str) :
    writeToken c₁ stickyCookie .url = writeToken c₂ stickyCookie .url ↔
      tokenValue c₁ stickyCookie .url = tokenValue c₂ stickyCookie .url ∨
        UrlClash c₁.req c₂.req := by
  simp only [writeToken, tokenValue, TokenValue.target.injEq]
  constructor
  · intro h
    obtain ⟨hp, hq⟩ | ⟨hnil, hne, hp⟩ | ⟨hnil, hne, hp⟩ :=
      append_tail_eq (canonicalQuery_shape _ _) (canonicalQuery_shape _ _) h
    · rw [canonicalQuery_eq_iff] at hq
      by_cases hpath : c₁.req.path = c₂.req.path
      · exact .inl ⟨hpath, hq⟩
      · exact .inr (.inl ⟨hpath, hp, hq⟩)
    · rw [ne_eq, canonicalQuery_eq_nil_iff] at hne
      rw [canonicalQuery_eq_nil_iff] at hnil
      exact .inr (.inr (.inl ⟨hnil, hne, hp⟩))
    · rw [ne_eq, canonicalQuery_eq_nil_iff] at hne
      rw [canonicalQuery_eq_nil_iff] at hnil
      exact .inr (.inr (.inr ⟨hnil, hne, hp⟩))
  · have spelled {r r' : Request} (h : SpellsOut r r') :
        keyValue r.path ++ canonicalQuery r (lit "?") (fun _ => true) =
          keyValue r'.path ++ canonicalQuery r' (lit "?") fun _ => true := by
      obtain ⟨hnil, -, hp⟩ := h
      rw [(canonicalQuery_eq_nil_iff r _ _).mpr hnil, append_nil, hp]
    rintro (⟨hpath, hq⟩ | ⟨-, hp, hq⟩ | h | h)
    · rw [hpath, (canonicalQuery_eq_iff _ _ _ _).mpr hq]
    · rw [hp, (canonicalQuery_eq_iff _ _ _ _).mpr hq]
    · exact spelled h
    · exact (spelled h).symm

theorem UrlClash.tokenValue_ne (h : UrlClash c₁.req c₂.req) (stickyCookie : Str) :
    tokenValue c₁ stickyCookie .url ≠ tokenValue c₂ stickyCookie .url := by
  simp only [tokenValue, ne_eq, TokenValue.target.injEq, not_and]
  intro hpath hq
  obtain ⟨hne, -⟩ | ⟨hnil, hne, -⟩ | ⟨hnil, hne, -⟩ := h
  · exact hne hpath
  · exact hne (hq.symm.trans hnil)
  · exact hne (hq.trans hnil)

/-- **When a key names the values of its tokens.** Two requests have one key exactly when they
agree on every token of the recipe, unless the recipe has a `url` token, they agree on all the
others, and their targets clash. -/
theorem buildKey_names_values_iff (c₁ c₂ : MatchContext) (stickyCookie : Str) (toks : List KeyToken)
    (h₁ : ∀ t ∈ recipeTokens toks, t.Resolved c₁) (h₂ : ∀ t ∈ recipeTokens toks, t.Resolved c₂) :
    (buildKey c₁ stickyCookie toks = buildKey c₂ stickyCookie toks ↔
      ∀ t ∈ recipeTokens toks, tokenValue c₁ stickyCookie t = tokenValue c₂ stickyCookie t) ↔
    ¬(.url ∈ recipeTokens toks ∧ UrlClash c₁.req c₂.req ∧ ∀ t ∈ recipeTokens toks, t ≠ .url →
        tokenValue c₁ stickyCookie t = tokenValue c₂ stickyCookie t) := by
  rw [buildKey_eq_iff h₁ h₂]
  constructor
  · rintro hiff ⟨hurl, hclash, hothers⟩
    refine hclash.tokenValue_ne stickyCookie (hiff.mp (fun t ht => ?_) .url hurl)
    by_cases hne : t = .url
    · rw [hne]
      exact (writeToken_url_eq_iff _ _ _).mpr (.inr hclash)
    · exact (writeToken_eq_iff _ _ _ hne).mpr (hothers t ht hne)
  · intro hno
    constructor
    · intro hwritten t ht
      by_cases hne : t = .url
      · rw [hne] at ht ⊢
        refine ((writeToken_url_eq_iff _ _ _).mp (hwritten .url ht)).resolve_right fun hclash => ?_
        exact hno ⟨ht, hclash, fun t' ht' hne' => (writeToken_eq_iff _ _ _ hne').mp (hwritten t' ht')⟩
      · exact (writeToken_eq_iff _ _ _ hne).mp (hwritten t ht)
    · intro hvalues t ht
      by_cases hne : t = .url
      · rw [hne] at ht ⊢
        exact (writeToken_url_eq_iff _ _ _).mpr (.inl (hvalues .url ht))
      · exact (writeToken_eq_iff _ _ _ hne).mpr (hvalues t ht)

def targetOf (path : String) (query : Option (String × String)) : MatchContext :=
  { req := { get (lit path) ∅ with
      query := match query with
        | none => ∅
        | some (k, v) => AList.insert (lit k) [lit v] ∅ }
    upstream := []
    respHeader := none }

theorem buildKey_names_values_pages :
    buildKey (targetOf "/a" (some ("b", "1"))) [] [.host, .url] =
        buildKey (targetOf "/a" (some ("b", "2"))) [] [.host, .url] ↔
      ∀ t ∈ recipeTokens [.host, .url], tokenValue (targetOf "/a" (some ("b", "1"))) [] t =
        tokenValue (targetOf "/a" (some ("b", "2"))) [] t := by
  have hresolved (c : MatchContext) (hc : keyTokenSep ∉ c.req.normHost) :
      ∀ t ∈ recipeTokens [.host, .url], t.Resolved c := by
    rintro t (_ | ⟨_, _ | ⟨_, ⟨⟩⟩⟩)
    · exact hc
    · trivial
  refine (buildKey_names_values_iff _ _ [] [.host, .url] (hresolved _ (by decide))
    (hresolved _ (by decide))).mpr ?_
  rintro ⟨-, ⟨hne, -⟩ | ⟨hnil, -⟩ | ⟨hnil, -⟩, -⟩
  · exact hne rfl
  · exact absurd hnil (by decide)
  · exact absurd hnil (by decide)

/-- **`/a%3Fb=1` is given the key of `/a?b=1`.** -/
theorem buildKey_url_clash :
    ¬ ∀ (c₁ c₂ : MatchContext) (stickyCookie : Str) (toks : List KeyToken),
      (∀ t ∈ recipeTokens toks, t.Resolved c₁) → (∀ t ∈ recipeTokens toks, t.Resolved c₂) →
      (buildKey c₁ stickyCookie toks = buildKey c₂ stickyCookie toks ↔
        ∀ t ∈ recipeTokens toks, tokenValue c₁ stickyCookie t = tokenValue c₂ stickyCookie t) := by
  intro h
  have hresolved (c : MatchContext) : ∀ t ∈ recipeTokens [.url], t.Resolved c := by
    rintro t (_ | ⟨_, ⟨⟩⟩)
    trivial
  have hvalues := (h (targetOf "/a?b=1" none) (targetOf "/a" (some ("b", "1"))) [] [.url]
    (hresolved _) (hresolved _)).mp (by decide) .url mem_cons_self
  simp only [tokenValue, TokenValue.target.injEq] at hvalues
  exact absurd hvalues.1 (by decide)

end Cadish
