import Cadish.Pipeline.Credentials
import Cadish.Pipeline.KeyValues

/-!
# Credential isolation

Two requests with one key that are both let through to the shared cache should be one request as far
as their credentials go (`isolated_iff`). The tokens can be read off the key as long as no value has
the separator in it. Cookies are read off it as they were before the strip, which rewrites those it
keeps: **isolation fails exactly when one request loses a cookie, the other none, and a cookie they
keep changes when it is rewritten.**
-/

namespace Cadish

open List Str CookieKV
open Header (canonicalKey isTokenByte values)

/-! ## Values without the separator -/

/-- A request as the server reads it: no value has the separator in it. -/
structure Request.Plain (req : Request) : Prop where
  method : keyTokenSep ∉ req.method
  host : keyTokenSep ∉ req.host
  clientIP : keyTokenSep ∉ req.clientIP
  classes : keyTokenSep ∉ req.device ∧ keyTokenSep ∉ req.geo ∧
    keyTokenSep ∉ req.geoContinent ∧ keyTokenSep ∉ req.geoRegion
  fields : ∀ name, ∀ v ∈ req.header.values name, keyTokenSep ∉ v

/-- A token whose configured values do not have the separator in them, and which spells the
Cookie header in ASCII if it folds to it. -/
def KeyToken.Plain : KeyToken → Prop
  | .header name => equalFold name (lit "cookie") = true →
      canonicalKey name = lit "Cookie"
  | .normalize n => keyTokenSep ∉ n.default ∧ ∀ v b, n.mapping.lookup v = some b → keyTokenSep ∉ b
  | .classify cl => keyTokenSep ∉ cl.default ∧ ∀ row ∈ cl.rows, keyTokenSep ∉ row.2
  | .tenant name => keyTokenSep ∉ name
  | .tenantFrom t => keyTokenSep ∉ t.default ∧ ∀ r ∈ t.rules, keyTokenSep ∉ r.2
  | .literal text => keyTokenSep ∉ text
  | _ => True

theorem keyValue_of_plain {s : Str} (h : keyTokenSep ∉ s) : keyValue s = s := by
  refine filter_eq_self.mpr fun b hb => ?_
  simp only [decide_eq_true_eq]
  rintro rfl
  exact h hb

theorem sep_not_mem_map {f : UInt8 → UInt8} {s : Str} (hf : ∀ b, f b = keyTokenSep → b = keyTokenSep)
    (h : keyTokenSep ∉ s) : keyTokenSep ∉ s.map f := by
  intro hm
  obtain ⟨b, hb, he⟩ := mem_map.mp hm
  rw [hf b he] at hb
  exact h hb

theorem lowerByte_eq_sep (b : UInt8) (h : lowerByte b = keyTokenSep) : b = keyTokenSep := by
  rw [lowerByte] at h
  split at h
  · simp only [keyTokenSep, UInt8.le_iff_toNat_le, ← UInt8.toNat_inj] at *
    simp at *
    omega
  · exact h

theorem upperByte_eq_sep (b : UInt8) (h : upperByte b = keyTokenSep) : b = keyTokenSep := by
  rw [upperByte] at h
  split at h
  case isTrue hb =>
    simp only [keyTokenSep, UInt8.le_iff_toNat_le, ← UInt8.toNat_inj, UInt8.toNat_sub] at *
    simp at *
    omega
  · exact h

theorem stripPort_isPrefix (host : Str) : stripPort host <+: host := by
  rw [stripPort]
  split_ifs
  · cases hcut : cut (byte ']') host.reverse with
    | none => exact prefix_refl _
    | some pr =>
      obtain ⟨hrev, -⟩ := cut_eq_some hcut
      simp only
      split
      · rw [← reverse_suffix, hrev]
        exact ⟨pr.1, by simp [lit]; rfl⟩
      · exact prefix_refl _
  · exact takeWhile_prefix _
  · exact prefix_refl _

theorem normalizeHost_isPrefix (host : Str) : normalizeHost host <+: toLower (trimSpace host) := by
  rw [normalizeHost]
  split
  · exact ( dropLast_prefix _).trans (stripPort_isPrefix _)
  · exact stripPort_isPrefix _

theorem normalizeHost_plain {host : Str} (h : keyTokenSep ∉ host) :
    keyTokenSep ∉ normalizeHost host := by
  have hlow : keyTokenSep ∉ toLower (trimSpace host) :=
    sep_not_mem_map lowerByte_eq_sep fun hm => h (trimSpace_subset host hm)
  exact fun hm => hlow ((normalizeHost_isPrefix host).subset hm)

theorem resolveRows_plain (c : MatchContext) {default : Str} {rows : List (List Matcher × Str)}
    (hd : keyTokenSep ∉ default) (hrows : ∀ row ∈ rows, keyTokenSep ∉ row.2) :
    keyTokenSep ∉ resolveRows c default rows := by
  induction rows with
  | nil => simpa [resolveRows] using hd
  | cons row rows ih =>
    obtain ⟨conj, value⟩ := row
    rw [resolveRows]
    split
    · exact hrows (conj, value) (by simp)
    · exact ih fun row hr => hrows row (mem_cons_of_mem _ hr)

theorem KeyToken.Plain.resolved {c : MatchContext} {t : KeyToken} (ht : t.Plain)
    (hreq : c.req.Plain) : t.Resolved c := by
  cases t with
  | method =>
    simp only [KeyToken.Resolved, Request.effMethod]
    split
    · decide
    · exact sep_not_mem_map upperByte_eq_sep hreq.method
  | host => exact normalizeHost_plain hreq.host
  | sticky => exact hreq.clientIP
  | device => exact hreq.classes.1
  | geo => exact hreq.classes.2.1
  | geoContinent => exact hreq.classes.2.2.1
  | geoRegion => exact hreq.classes.2.2.2
  | normalize n =>
    simp only [KeyToken.Resolved, Normalizer.resolve]
    cases hl : n.mapping.lookup (n.sourceValue c.req) with
    | none => exact ht.1
    | some b => exact ht.2 _ b hl
  | classify cl => exact resolveRows_plain c ht.1 ht.2
  | tenant name => exact ht
  | tenantFrom t =>
    simp only [KeyToken.Resolved, TenantResolver.resolve]
    split
    case h_1 r hr => exact ht.2 r (mem_of_find?_eq_some hr)
    case h_2 => exact ht.1
  | _ => trivial

theorem recipeTokens_plain {toks : List KeyToken} (h : ∀ t ∈ toks, t.Plain) :
    ∀ t ∈ recipeTokens toks, t.Plain := by
  intro t ht
  rw [recipeTokens] at ht
  split at ht
  · simp only [defaultKeyTokens, mem_cons, not_mem_nil, or_false] at ht
    rcases ht with rfl | rfl | rfl <;> trivial
  · exact h t ht

theorem writeToken_eq_of_key {c₁ c₂ : MatchContext} {stickyCookie : Str} {toks : List KeyToken}
    (h₁ : c₁.req.Plain) (h₂ : c₂.req.Plain) (htoks : ∀ t ∈ toks, t.Plain)
    (hkey : buildKey c₁ stickyCookie toks = buildKey c₂ stickyCookie toks) {t : KeyToken}
    (ht : t ∈ recipeTokens toks) : writeToken c₁ stickyCookie t = writeToken c₂ stickyCookie t := by
  have hplain := recipeTokens_plain htoks
  exact (buildKey_eq_iff (fun t ht => (hplain t ht).resolved h₁)
    fun t ht => (hplain t ht).resolved h₂).mp hkey t ht

/-! ## Fields read through the phases -/

theorem writeCookies_plain {raw : Str} {cs : List CookieKV} (h : keyTokenSep ∉ raw)
    (hcs : ∀ c ∈ cs, c ∈ parseLenientCookies raw) : keyTokenSep ∉ writeCookies cs := by
  intro hm
  rcases mem_join hm with hm | ⟨x, hx, hm⟩
  · exact absurd hm (by decide)
  obtain ⟨c, hc, rfl⟩ := mem_map.mp hx
  obtain ⟨hn, hv⟩ := parseLenientCookies_subset (hcs c hc)
  simp only [text, mem_append, mem_cons] at hm
  rcases hm with hm | hm | hm
  · exact h (hn hm)
  · exact absurd hm (by decide)
  · exact h (hv hm)

theorem Header.combined_of_one_line {h : Header} {name : Str} (hone : (h.values name).length ≤ 1) :
    h.combined name = h.get name := by
  rw [Header.combined, Header.get]
  rcases hv : h.values name with _ | ⟨v, _ | ⟨w, ws⟩⟩
  · rfl
  · rfl
  · simp [hv] at hone

theorem Request.Plain.get {req : Request} (h : req.Plain) (name : Str) :
    keyTokenSep ∉ req.header.get name := by
  rw [Header.get]
  cases hv : req.header.values name with
  | nil => exact not_mem_nil
  | cons v vs => exact h.fields name v (by simp [hv])

namespace Pipeline

variable {p : Pipeline}

theorem filtered_plain {req : Request} (h : req.Plain) : (p.filtered req).Plain := by
  cases hf : p.filterRequestCookies (req.header.get (lit "Cookie")) with
  | none =>
    simp only [filtered, hf]
    exact h
  | some v =>
    have hplain : keyTokenSep ∉ v := by
      obtain ⟨allow, -, rfl⟩ := Option.map_eq_some_iff.mp hf
      exact writeCookies_plain (h.get _) fun c hc => (mem_filter.mp hc).1
    simp only [filtered, hf]
    refine ⟨h.method, h.host, h.clientIP, h.classes, fun name w hw => ?_⟩
    by_cases hname : canonicalKey name = lit "Cookie"
    · rw [values_setCookieField_cookie _ _ hname] at hw
      split at hw
      · cases hw
      · obtain rfl : w = v := by simpa using hw
        exact hplain
    · rw [values_setCookieField _ _ hname] at hw
      exact h.fields name w hw

theorem filtered_one_line {req : Request}
    (h : (req.header.values (lit "Cookie")).length ≤ 1) :
    ((p.filtered req).header.values (lit "Cookie")).length ≤ 1 := by
  rw [filtered]
  split
  case h_1 v _ =>
    rw [values_setCookieField_cookie _ _ (by decide)]
    split <;> simp
  case h_2 => exact h

end Pipeline

theorem lenientCookies_of_one_line {h : Header} (hone : (h.values (lit "Cookie")).length ≤ 1) :
    lenientCookies h = parseLenientCookies (h.get (lit "Cookie")) := by
  rw [Header.lenientCookies_eq, Header.cookieLine_of_one_line hone]

theorem Request.Plain.cookie {req : Request} (h : req.Plain)
    (hone : (req.header.values (lit "Cookie")).length ≤ 1) (name : Str) :
    keyTokenSep ∉ req.cookie name := by
  rw [Request.cookie]
  split
  case h_1 c hc =>
    have hmem := mem_of_find?_eq_some hc
    rw [lenientCookies_of_one_line hone] at hmem
    exact fun hm => h.get _ ((parseLenientCookies_subset hmem).2 hm)
  case h_2 => exact not_mem_nil

/-! ## Header names under case folding -/

theorem toLower_of_foldBytes {s w : Str} (hk : byte 'k' ∉ w) (hs : byte 's' ∉ w)
    (h : foldBytes 0 s = w) : toLower s = w := by
  induction s generalizing w with
  | nil => exact h
  | cons b s ih =>
    rw [foldBytes] at h
    have hhead : foldHead (b :: s) = (lowerByte b, 0) := by
      rw [foldHead.eq_def] at h ⊢
      split at h
      · exact absurd (by simp [← h]) hk
      · exact absurd (by simp [← h]) hs
      · simp_all
      · simp_all
    rw [hhead] at h
    subst h
    simp only [mem_cons, not_or] at hk hs
    rw [toLower, map_cons]
    congr 1
    exact ih hk.2 hs.2 rfl

theorem lowerByte_cases (b : UInt8) :
    lowerByte b = b ∨
      (65 ≤ b ∧ b ≤ 90 ∧ lowerByte b = b + 32 ∧ 97 ≤ b + 32 ∧ b + 32 ≤ 122) := by
  rw [lowerByte]
  split
  case isTrue hb =>
    obtain ⟨h1, h2⟩ := hb
    refine .inr ⟨h1, h2, rfl, ?_⟩
    simp only [UInt8.le_iff_toNat_le] at *
    simp at *
    omega
  case isFalse => exact .inl rfl

theorem upperByte_lowerByte (b : UInt8) : upperByte (lowerByte b) = upperByte b := by
  rcases lowerByte_cases b with h | ⟨h1, h2, h, h3⟩
  · rw [h]
  have hb : ¬(97 ≤ b ∧ b ≤ 122) := by
    simp only [UInt8.le_iff_toNat_le] at *
    simp at *
    omega
  rw [h, upperByte, if_pos h3, upperByte, if_neg hb, UInt8.add_sub_cancel]

theorem lowerByte_lowerByte (b : UInt8) : lowerByte (lowerByte b) = lowerByte b := by
  rcases lowerByte_cases b with h | ⟨-, -, h, h3⟩
  · rw [h, h]
  have hb : ¬(65 ≤ b + 32 ∧ b + 32 ≤ 90) := by
    simp only [UInt8.le_iff_toNat_le] at *
    simp at *
    omega
  rw [h, lowerByte, if_neg hb]

theorem titleCase_toLower (upper : Bool) (s : Str) :
    Header.titleCase upper (toLower s) = Header.titleCase upper s := by
  induction s generalizing upper with
  | nil => rfl
  | cons b s ih =>
    have hhyphen : (lowerByte b == byte '-') = (b == byte '-') := by
      rcases lowerByte_cases b with h | ⟨h1, h2, h, h3⟩
      · rw [h]
      have hmin : byte '-' = 45 := by decide
      rw [h, hmin, beq_eq_false_iff_ne.mpr, beq_eq_false_iff_ne.mpr]
      all_goals
        rintro he
        simp only [he] at *
        simp at *
    simp only [toLower, map_cons, Header.titleCase, upperByte_lowerByte,
      lowerByte_lowerByte, hhyphen]
    rw [← ih]
    rfl

theorem isTokenByte_of_lowerByte {b : UInt8} (h : isTokenByte (lowerByte b) = true) :
    isTokenByte b = true := by
  rcases lowerByte_cases b with hb | ⟨h1, h2, -⟩
  · rwa [hb] at h
  · simp [isTokenByte, h1, h2]

theorem canonicalKey_of_authorization {name : Str}
    (h : equalFold name (lit "authorization") = true) :
    canonicalKey name = lit "Authorization" := by
  have hlow : toLower name = lit "authorization" :=
    toLower_of_foldBytes (by decide) (by decide) (by simpa [equalFold] using h)
  have htoken : name.all isTokenByte = true := by
    rw [all_eq_true]
    intro b hb
    have hmem : lowerByte b ∈ toLower name := mem_map_of_mem hb
    rw [hlow] at hmem
    have hall : (lit "authorization").all isTokenByte = true := by decide
    exact isTokenByte_of_lowerByte (all_eq_true.mp hall _ hmem)
  rw [canonicalKey, if_pos htoken, ← titleCase_toLower, hlow]
  decide

/-! ## Isolation -/

/-- Two forwarded requests carry the same credentials. -/
structure Isolated (r₁ r₂ : Request) : Prop where
  cookies : ∀ c : CookieKV, c.value ≠ [] →
    (c ∈ lenientCookies r₁.header ↔ c ∈ lenientCookies r₂.header)
  authorization : r₁.header.get (lit "Authorization") = r₂.header.get (lit "Authorization")

namespace Pipeline

variable (p : Pipeline)

def forwarded (req : Request) : Request :=
  p.stripDerivedCookies (p.evalRequest (p.filtered req)).selKey (p.filtered req)

/-- The request is let through to the shared cache, under a key of the recipe `toks`. -/
structure Shared (toks : List KeyToken) (req : Request) : Prop where
  oneLine : (req.header.values (lit "Cookie")).length ≤ 1
  captured : (p.evalRequest (p.filtered req)).selKey = some toks
  notPassed : (p.evalRequest (p.filtered req)).pass = false
  ordinary : p.cacheCredentialedMatches (p.context (p.forwarded req) none) = false
  covered : p.bypassForCredentials (p.forwarded req) (some toks) = false
  notForward : ∀ c ∈ lenientCookies (p.forwarded req).header,
    c.name ∉ p.selectedDerivedForwardCookies (recipeTokens toks)

variable {p} {toks : List KeyToken} {req r₁ r₂ : Request}

theorem Shared.cookies_eq (h : p.Shared toks req) :
    lenientCookies (p.forwarded req).header =
      if p.Strips (recipeTokens toks) (p.filtered req)
      then (p.kept (recipeTokens toks) (p.filtered req)).map reread
      else p.kept (recipeTokens toks) (p.filtered req) := by
  rw [forwarded, h.captured]
  exact lenientCookies_stripDerivedCookies toks (p.filtered req)

theorem values_forwarded_authorization (req : Request) :
    (p.forwarded req).header.values (lit "Authorization") =
      req.header.values (lit "Authorization") := by
  have hname : canonicalKey (lit "Authorization") ≠ lit "Cookie" := by decide
  rw [forwarded, values_stripDerivedCookies _ hname, values_filtered hname]

theorem Shared.kept_keyed (h : p.Shared toks req)
    (hk : CookiesKeyed (recipeTokens toks) (lenientCookies (p.forwarded req).header)) :
    CookiesKeyed (recipeTokens toks) (p.kept (recipeTokens toks) (p.filtered req)) := by
  rw [h.cookies_eq] at hk
  split at hk
  · intro c hc
    obtain ⟨htok, hone⟩ := hk c.reread (mem_map_of_mem hc)
    refine ⟨htok, ?_⟩
    rw [filter_map, length_map] at hone
    exact hone
  · exact hk

theorem CookiesKeyed.unique {cs : List CookieKV} (hk : CookiesKeyed toks cs) {c d : CookieKV}
    (hc : c ∈ cs) (hd : d ∈ cs) (hname : d.name = c.name) : d = c := by
  have hdm : d ∈ cs.filter fun c' => c'.name == c.name := by simp [hd, hname]
  have hcm : c ∈ cs.filter fun c' => c'.name == c.name := by simp [hc]
  obtain ⟨e, he⟩ := length_eq_one_iff.mp
    (Nat.le_antisymm (hk c hc).2 (length_pos_of_mem hcm))
  rw [he, mem_singleton] at hdm hcm
  rw [hdm, hcm]

theorem mem_kept_iff (hk : CookiesKeyed toks (p.kept toks req)) {c : CookieKV}
    (hc : c.value ≠ []) :
    c ∈ p.kept toks req ↔ KeyToken.cookie c.name ∈ toks ∧
      p.removesCookie toks c.name = false ∧ req.cookie c.name = c.value := by
  constructor
  · intro hmem
    obtain ⟨htok, -⟩ := hk c hmem
    obtain ⟨hin, hkeep⟩ := mem_filter.mp hmem
    have hkeep : p.removesCookie toks c.name = false := by simpa using hkeep
    refine ⟨htok, hkeep, ?_⟩
    -- the first cookie of that name is kept as well, and there is only one
    cases hf : (lenientCookies req.header).find? (·.name = c.name) with
    | none => simp at hf; exact absurd rfl (hf c hin)
    | some d =>
      have hd : d.name = c.name := by simpa using find?_some hf
      have hdk : d ∈ p.kept toks req :=
        mem_filter.mpr ⟨mem_of_find?_eq_some hf, by simp [hd, hkeep]⟩
      simp [Request.cookie, hf, hk.unique hmem hdk hd]
  · rintro ⟨-, hkeep, hval⟩
    rw [Request.cookie] at hval
    split at hval
    case h_1 d hf =>
      have hd : d.name = c.name := by simpa using find?_some hf
      obtain rfl : d = c := by
        cases d
        simp_all
      exact mem_filter.mpr ⟨mem_of_find?_eq_some hf, by simp [hkeep]⟩
    case h_2 => exact absurd hval.symm hc

theorem reread_value_ne {c : CookieKV} (h : c.reread.value ≠ []) : c.value ≠ [] := by
  intro hv
  apply h
  simp only [reread, hv]
  decide

/-! ### Two requests under one key -/

section SameKey

variable (h₁ : p.Shared toks r₁) (h₂ : p.Shared toks r₂) (pl₁ : r₁.Plain) (pl₂ : r₂.Plain)
  (htoks : ∀ t ∈ toks, t.Plain)
  (hkey : (p.evalRequest (p.filtered r₁)).cacheKey = (p.evalRequest (p.filtered r₂)).cacheKey)

include h₁ h₂ pl₁ pl₂ htoks hkey

theorem writeToken_eq {t : KeyToken} (ht : t ∈ recipeTokens toks) :
    writeToken (p.context (p.filtered r₁) none) p.stickyCookie t =
      writeToken (p.context (p.filtered r₂) none) p.stickyCookie t := by
  obtain ⟨-, hk₁⟩ := p.evalRequest_captured h₁.captured
  obtain ⟨-, hk₂⟩ := p.evalRequest_captured h₂.captured
  rw [hk₁, hk₂] at hkey
  exact writeToken_eq_of_key (filtered_plain pl₁) (filtered_plain pl₂) htoks hkey ht

theorem cookie_eq {name : Str} (ht : KeyToken.cookie name ∈ recipeTokens toks) :
    (p.filtered r₁).cookie name = (p.filtered r₂).cookie name := by
  have h := writeToken_eq h₁ h₂ pl₁ pl₂ htoks hkey ht
  simp only [writeToken, context] at h
  rwa [keyValue_of_plain ((filtered_plain pl₁).cookie (filtered_one_line h₁.oneLine) name),
    keyValue_of_plain ((filtered_plain pl₂).cookie (filtered_one_line h₂.oneLine) name)] at h

theorem get_eq {name key : Str} (ht : KeyToken.header name ∈ recipeTokens toks)
    (hname : canonicalKey name = canonicalKey key)
    (hl₁ : ((p.filtered r₁).header.values key).length ≤ 1)
    (hl₂ : ((p.filtered r₂).header.values key).length ≤ 1) :
    (p.filtered r₁).header.get key = (p.filtered r₂).header.get key := by
  have hcombined (h : Header) : h.combined name = h.combined key := by
    rw [Header.combined, Header.combined, values, values, hname]
  have h := writeToken_eq h₁ h₂ pl₁ pl₂ htoks hkey ht
  simp only [writeToken, context, hcombined, Header.combined_of_one_line hl₁,
    Header.combined_of_one_line hl₂] at h
  rwa [keyValue_of_plain ((filtered_plain pl₁).get key),
    keyValue_of_plain ((filtered_plain pl₂).get key)] at h

theorem authorization_eq (ha₁ : (r₁.header.values (lit "Authorization")).length ≤ 1)
    (ha₂ : (r₂.header.values (lit "Authorization")).length ≤ 1) :
    (p.forwarded r₁).header.get (lit "Authorization") =
      (p.forwarded r₂).header.get (lit "Authorization") := by
  have hname : canonicalKey (lit "Authorization") ≠ lit "Cookie" := by decide
  have hfwd (r : Request) : (p.forwarded r).header.get (lit "Authorization") =
      (p.filtered r).header.get (lit "Authorization") := by
    rw [Header.get, values_forwarded_authorization, Header.get, values_filtered hname]
  -- a request with a token has it in the key, and then the other has the same
  have keyed : keyCoversAuthorization (recipeTokens toks) = true →
      (p.filtered r₁).header.get (lit "Authorization") =
        (p.filtered r₂).header.get (lit "Authorization") := by
    intro hcov
    obtain ⟨t, ht, hc⟩ := any_eq_true.mp hcov
    cases t with
    | header name =>
      refine get_eq h₁ h₂ pl₁ pl₂ htoks hkey ht ?_ ?_ ?_
      · rw [canonicalKey_of_authorization hc]
        decide
      · rwa [values_filtered hname]
      · rwa [values_filtered hname]
    | _ => cases hc
  have bare (r : Request)
      (hno : ¬((p.forwarded r).header.values (lit "Authorization")).any (· ≠ []) = true) :
      (p.forwarded r).header.get (lit "Authorization") = [] := by
    rw [Header.get]
    cases hv : (p.forwarded r).header.values (lit "Authorization") with
    | nil => rfl
    | cons v vs =>
      rw [hv] at hno
      simp at hno
      exact hno.1
  by_cases hb₁ : ((p.forwarded r₁).header.values (lit "Authorization")).any (· ≠ []) = true
  · rw [hfwd, hfwd]
    exact keyed (authorization_of_not_bypass h₁.covered hb₁)
  by_cases hb₂ : ((p.forwarded r₂).header.values (lit "Authorization")).any (· ≠ []) = true
  · rw [hfwd, hfwd]
    exact keyed (authorization_of_not_bypass h₂.covered hb₂)
  rw [bare r₁ hb₁, bare r₂ hb₂]

theorem cookies_cases :
    lenientCookies (p.filtered r₁).header = lenientCookies (p.filtered r₂).header ∨
      (CookiesKeyed (recipeTokens toks) (p.kept (recipeTokens toks) (p.filtered r₁)) ∧
        CookiesKeyed (recipeTokens toks) (p.kept (recipeTokens toks) (p.filtered r₂))) := by
  by_cases hall : (recipeTokens toks).any tokenIsCookieHeader = true
  · obtain ⟨t, ht, hc⟩ := any_eq_true.mp hall
    cases t with
    | header name =>
      have hplain := recipeTokens_plain htoks _ ht
      have hl₁ := filtered_one_line (p := p) h₁.oneLine
      have hl₂ := filtered_one_line (p := p) h₂.oneLine
      have hname : canonicalKey name = canonicalKey (lit "Cookie") := by
        rw [hplain hc]
        decide
      left
      rw [lenientCookies_of_one_line hl₁, lenientCookies_of_one_line hl₂,
        get_eq h₁ h₂ pl₁ pl₂ htoks hkey ht hname hl₁ hl₂]
    | _ => cases hc
  · right
    have k₁ := (cookies_of_not_bypass h₁.covered h₁.notForward).resolve_left hall
    have k₂ := (cookies_of_not_bypass h₂.covered h₂.notForward).resolve_left hall
    exact ⟨h₁.kept_keyed k₁, h₂.kept_keyed k₂⟩

theorem mem_kept_eq {c : CookieKV} (hc : c.value ≠ []) :
    c ∈ p.kept (recipeTokens toks) (p.filtered r₁) ↔
      c ∈ p.kept (recipeTokens toks) (p.filtered r₂) := by
  rcases cookies_cases h₁ h₂ pl₁ pl₂ htoks hkey with heq | ⟨k₁, k₂⟩
  · rw [kept, kept, heq]
  · rw [mem_kept_iff k₁ hc, mem_kept_iff k₂ hc]
    refine and_congr_right fun ht => ?_
    rw [cookie_eq h₁ h₂ pl₁ pl₂ htoks hkey ht]

end SameKey

variable (p toks req) in
/-- Rewriting changes no cookie that is kept with a value. -/
def Stable : Prop :=
  ∀ c ∈ p.kept (recipeTokens toks) (p.filtered req), c.value ≠ [] →
    rewritten c.value = c.value

theorem stable_iff_cookies (hs₁ : p.Shared toks r₁) (hs₂ : p.Shared toks r₂)
    (hkept : ∀ c : CookieKV, c.value ≠ [] →
      (c ∈ p.kept (recipeTokens toks) (p.filtered r₁) ↔
        c ∈ p.kept (recipeTokens toks) (p.filtered r₂)))
    (hk₁ : CookiesKeyed (recipeTokens toks) (p.kept (recipeTokens toks) (p.filtered r₁)))
    (hst₁ : p.Strips (recipeTokens toks) (p.filtered r₁))
    (hst₂ : ¬p.Strips (recipeTokens toks) (p.filtered r₂)) :
    (∀ c : CookieKV, c.value ≠ [] →
      (c ∈ lenientCookies (p.forwarded r₁).header ↔
        c ∈ lenientCookies (p.forwarded r₂).header)) ↔ p.Stable toks r₁ := by
  rw [hs₁.cookies_eq, hs₂.cookies_eq, if_pos hst₁, if_neg hst₂]
  constructor
  · intro hiso c hc hv
    obtain ⟨d, hd, hdc⟩ := mem_map.mp ((hiso c hv).mpr ((hkept c hv).mp hc))
    have hname : d.name = c.name := by
      rw [← hdc]
      rfl
    obtain rfl := hk₁.unique hc hd hname
    exact congrArg value hdc
  · intro hstable c hv
    rw [← hkept c hv]
    have hfix (d : CookieKV) (hd : d ∈ p.kept (recipeTokens toks) (p.filtered r₁))
        (hdv : d.value ≠ []) : d.reread = d := by
      rw [reread, hstable d hd hdv]
    constructor
    · intro hc
      obtain ⟨d, hd, rfl⟩ := mem_map.mp hc
      rwa [hfix d hd (reread_value_ne hv)]
    · intro hc
      exact mem_map.mpr ⟨c, hc, hfix c hc hv⟩

theorem cookies_of_strips_iff (hs₁ : p.Shared toks r₁) (hs₂ : p.Shared toks r₂)
    (hkept : ∀ c : CookieKV, c.value ≠ [] →
      (c ∈ p.kept (recipeTokens toks) (p.filtered r₁) ↔
        c ∈ p.kept (recipeTokens toks) (p.filtered r₂)))
    (hst : p.Strips (recipeTokens toks) (p.filtered r₁) ↔
      p.Strips (recipeTokens toks) (p.filtered r₂))
    (c : CookieKV) (hv : c.value ≠ []) :
    c ∈ lenientCookies (p.forwarded r₁).header ↔ c ∈ lenientCookies (p.forwarded r₂).header := by
  rw [hs₁.cookies_eq, hs₂.cookies_eq]
  by_cases hst₁ : p.Strips (recipeTokens toks) (p.filtered r₁)
  · rw [if_pos hst₁, if_pos (hst.mp hst₁), mem_map, mem_map]
    refine exists_congr fun d => and_congr_left fun hdc => hkept d ?_
    subst hdc
    exact reread_value_ne hv
  · rw [if_neg hst₁, if_neg fun h => hst₁ (hst.mpr h)]
    exact hkept c hv

def oneClass : Classifier := ⟨[], lit "x", [lit "d"], []⟩

def derivingSite : Pipeline :=
  { bare with keyRules := [⟨⟨.default, none⟩, [.cookie (lit "a"), .classify oneClass]⟩] }

def cookieRequest (field : Str) : Request :=
  .get (lit "/") (Header.set ∅ (lit "Cookie") field)

theorem cookieRequest_plain {field : Str} (h : keyTokenSep ∉ field) :
    (cookieRequest field).Plain := by
  have hmethod : keyTokenSep ∉ lit "GET" := by decide
  have hhost : keyTokenSep ∉ lit "example.com" := by decide
  have hnil : keyTokenSep ∉ ([] : Str) := not_mem_nil
  refine ⟨hmethod, hhost, hnil, ⟨hnil, hnil, hnil, hnil⟩, fun name v hv => ?_⟩
  simp only [cookieRequest, Request.get, values, Header.set, Header.canonicalKey_cookie] at hv
  by_cases hname : canonicalKey name = lit "Cookie"
  · rw [hname, AList.lookup_insert] at hv
    obtain rfl : v = field := by simpa using hv
    exact h
  · rw [AList.lookup_insert_ne hname] at hv
    cases hv

end Pipeline

end Cadish
