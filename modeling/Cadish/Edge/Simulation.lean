import Cadish.Edge.Interpreter

/-!
# The interpreter and the server, matcher by matcher

On one request the worker and the server agree on a matcher wherever **the libraries below them
agree** (`Leaf.Agrees`) and its name stands for the matcher it was written for
(`PlanMatcher.Stands`). `matchOne_project` is the simulation; the stack has to be as deep as the
matcher is (`PlanMatcher.height`).
-/

namespace Cadish.Edge

open Option Header PlanMatcher
open List hiding beq_eq_decide

/-! ## Patterns -/

variable (b : UInt8) (pattern : Str) (patterns : List Str) (path : Str)

theorem matchGlob_eq (s : Str) : matchGlob pattern s = (compileGlob pattern).matches s := rfl

theorem matchPathPattern_iff : matchPathPattern pattern path = true ↔ Wild pattern path := by
  rw [matchPathPattern]
  by_cases hstar : pattern = [star]
  · simp [hstar, wild_star]
  · rw [if_neg hstar]
    by_cases hmem : star ∉ pattern
    · rw [if_pos hmem, wild_literal hmem, beq_iff_eq]
    · rw [if_neg hmem, matchGlob_eq, compileGlob_matches (not_not.mp hmem)]

theorem any_matchPathPattern :
    (patterns.any fun p => matchPathPattern p path) = (PathSet.ofPatterns patterns).matches path := by
  rw [Bool.eq_iff_iff, PathSet.matches_iff, List.any_eq_true]
  simp only [matchPathPattern_iff]

theorem nameGlobMatch_eq (name : Str) :
    nameGlobMatch patterns name = nameGlobSet patterns name := by
  rw [Bool.eq_iff_iff, nameGlobMatch, nameGlobSet]
  simp only [Bool.or_eq_true, elem_eq_mem, decide_eq_true_eq, mem_filter, List.any_eq_true]
  constructor
  · rintro ⟨p, hp, h⟩
    split at h
    case isTrue hstar => exact .inl (.inl (hstar ▸ hp))
    case isFalse hstar =>
      split at h
      case isTrue hmem => exact .inl (.inr (by simpa [beq_iff_eq.mp h] using ⟨hp, hmem⟩))
      case isFalse hmem => exact .inr ⟨p, ⟨hp, not_not.mp hmem, hstar⟩, h⟩
  · rintro ((hall | ⟨hp, hmem⟩) | ⟨p, ⟨hp, hmem, hstar⟩, h⟩)
    · exact ⟨[star], hall, by simp⟩
    · refine ⟨name, hp, ?_⟩
      split
      case isTrue => rfl
      case isFalse => simp
    · refine ⟨p, hp, ?_⟩
      rw [if_neg hstar, if_neg (not_not.mpr hmem)]
      exact h

/-! ## Header names -/

theorem isTokenByte_upperByte : isTokenByte (Str.upperByte b) = isTokenByte b := by
  rw [Str.upperByte]
  split
  case isTrue hb =>
    obtain ⟨h1, h2⟩ := hb
    have hup : 65 ≤ b - 32 ∧ b - 32 ≤ 90 := by
      simp only [UInt8.le_iff_toNat_le, UInt8.toNat_sub] at *
      simp at *
      omega
    simp [isTokenByte, h1, h2, hup]
  case isFalse => rfl

theorem isTokenByte_lowerByte : isTokenByte (Str.lowerByte b) = isTokenByte b := by
  rcases lowerByte_cases b with hb | ⟨h1, h2, hb, h3, h4⟩
  · rw [hb]
  · simp [hb, isTokenByte, h1, h2, h3, h4]

theorem all_isTokenByte_titleCase (upper : Bool) (name : Str) :
    (titleCase upper name).all isTokenByte = name.all isTokenByte := by
  induction name generalizing upper with
  | nil => rfl
  | cons b s ih =>
    rw [titleCase, all_cons, ih]
    cases upper <;> simp [isTokenByte_upperByte, isTokenByte_lowerByte]

def Received (h : Header) : Prop := ∀ name ∈ h.keys, name.all isTokenByte = true

theorem lookup_canonicalHeaderKey {h : Header} (hreceived : Received h) (name : Str) :
    h.lookup (canonicalHeaderKey name) = h.lookup (canonicalKey name) := by
  by_cases hname : name.all isTokenByte = true
  · rw [canonicalKey, if_pos hname, canonicalHeaderKey]
  · have habsent {k : Str} (hk : k.all isTokenByte ≠ true) : h.lookup k = none :=
      AList.lookup_eq_none.mpr fun hmem => hk (hreceived k (AList.mem_keys.mp hmem))
    rw [canonicalKey, if_neg hname, habsent hname, habsent]
    rwa [canonicalHeaderKey, all_isTokenByte_titleCase]

/-! ## One request on both sides -/

/-- The server's request and the worker's are one, as far as both see it. -/
structure SameRequest (r : Request) (i : IReq) : Prop where
  received : Received r.header
  method : i.method = r.method
  host : i.host = r.host
  path : i.path = r.path
  query : i.query = r.query
  header : i.header = r.header
  geo : i.geo = r.geo
  geoContinent : i.geoContinent = r.geoContinent
  geoRegion : i.geoRegion = r.geoRegion

namespace SameRequest

variable {r : Request} {i : IReq} (h : SameRequest r i)
include h

theorem headerValues (name : Str) : i.headerValues name = r.header.values name := by
  rw [IReq.headerValues, values, h.header, lookup_canonicalHeaderKey h.received]

theorem headerPresent (name : Str) : i.headerPresent name = r.header.present name := by
  rw [IReq.headerPresent, present, h.header, lookup_canonicalHeaderKey h.received]

theorem headerCombined (name : Str) : i.headerCombined name = r.header.combined name := by
  rw [IReq.headerCombined, h.headerValues]
  rfl

theorem parseCookies : i.parseCookies = lenientCookies r.header := by
  rw [IReq.parseCookies, h.header]
  rfl

theorem cookieValue (name : Str) : i.cookieValue name = r.cookie name := by
  rw [IReq.cookieValue, h.parseCookies]
  rfl

theorem reqMethod : i.reqMethod = r.effMethod := by
  rw [IReq.reqMethod, Request.effMethod, h.method]
  split <;> rfl

theorem canonicalQuery (lead : Str) (keep : Str → Bool) :
    Edge.canonicalQuery i lead keep = Cadish.canonicalQuery r lead keep := by
  rw [Edge.canonicalQuery, Cadish.canonicalQuery, h.query]

end SameRequest

structure SameContext (c : MatchContext) (i : Ctx) : Prop where
  req : SameRequest c.req i.req
  upstream : i.upstream = c.upstream
  respHeader : i.respHeader = c.respHeader
  respReceived : ∀ h ∈ c.respHeader, Received h

/-! ## Leaves -/

section Leaves

variable (E : Engines) (js : Js)

/-- A regex is one for the worker, and finds in a text what the server's finds. -/
def RegexAgrees (src s : Str) : Prop :=
  ∃ pat flags re, splitRE2Flags src = some (pat, flags) ∧ js.exec pat flags = some re ∧
    (re s).isSome = E.regex src s

/-- The libraries agree about a leaf, on the values of a request and a response that it reads. -/
def Leaf.Agrees (req : IReq) (respHeader : Option Header) : Leaf Str → Prop
  | .pathRegex src => RegexAgrees E js src req.path
  | .hostRegex src => RegexAgrees E js src (normalizeHost req.host)
  | .headerRegex name src =>
    ∃ pat flags re, splitRE2Flags src = some (pat, flags) ∧ js.exec pat flags = some re ∧
      ∀ v ∈ req.headerValues name, (re v).isSome = E.regex src v
  | .cookieJSON name jsonPath values =>
    ∀ ck ∈ req.parseCookies.find? (·.name = name),
      js.json jsonPath values ck.value = E.json jsonPath values ck.value
  | .headerJSON name jsonPath values =>
    ∀ v ∈ req.headerValues name, js.json jsonPath values v = E.json jsonPath values v
  | .setCookie _ => ∀ h ∈ respHeader, responseCookieNames h = setCookieNames h
  | .ip _ => False
  | .upstreamHealthy _ => False
  | _ => True

variable {E js}

theorem RegexAgrees.eval {src s : Str} (h : RegexAgrees E js src s) :
    ∃ pat flags, splitRE2Flags src = some (pat, flags) ∧
      (js.exec pat flags).map (fun re => (re s).isSome) = some (E.regex src s) := by
  obtain ⟨pat, flags, re, hsplit, hexec, heq⟩ := h
  exact ⟨pat, flags, hsplit, by rw [hexec, map_some, heq]⟩

theorem matchLeaf_project {c : MatchContext} {i : Ctx} (hs : SameContext c i) {l : Leaf Str}
    (hl : l.Agrees E js i.req i.respHeader) :
    matchLeaf js i (projectLeaf l) = some ((l.compile E).matches c) := by
  have hr := hs.req
  cases l with
  | path patterns =>
    rw [projectLeaf, matchLeaf, any_matchPathPattern, hr.path]
    rfl
  | pathRegex src =>
    obtain ⟨pat, flags, hsplit, heval⟩ := RegexAgrees.eval hl
    rw [projectLeaf, hsplit, matchLeaf, heval, hr.path]
    rfl
  | host patterns =>
    rw [projectLeaf, matchLeaf, hr.host, Leaf.compile]
    refine congrArg some (congrArg (patterns.any ·) (funext fun p => ?_))
    simp only [matchHostPattern, beq_eq_decide]
  | hostRegex src =>
    obtain ⟨pat, flags, hsplit, heval⟩ := RegexAgrees.eval hl
    rw [projectLeaf, hsplit, matchLeaf, heval, hr.host]
    rfl
  | header name values =>
    rw [projectLeaf, matchLeaf, hr.headerPresent, hr.headerValues, Leaf.compile, Matcher.matches]
    cases values <;> simp
  | headerRegex name src =>
    obtain ⟨pat, flags, re, hsplit, hexec, heq⟩ := hl
    rw [projectLeaf, hsplit, matchLeaf, hexec, Leaf.compile, Matcher.matches, ← hr.headerValues]
    exact congrArg some (Bool.eq_iff_iff.mpr (by
      simp only [List.any_eq_true]
      exact exists_congr fun v => and_congr_right fun hv => by rw [heq v hv]))
  | method methods =>
    rw [projectLeaf, matchLeaf, hr.reqMethod]
    rfl
  | upstream upstreams =>
    rw [projectLeaf, matchLeaf, hs.upstream]
    rfl
  | contentType types =>
    rw [projectLeaf, matchLeaf, hs.respHeader, Leaf.compile, Matcher.matches]
    cases c.respHeader with
    | none => rfl
    | some h => dsimp only; split <;> simp [*]
  | respHeader name values =>
    rw [projectLeaf, matchLeaf, hs.respHeader, Leaf.compile, Matcher.matches]
    cases hh : c.respHeader with
    | none => rfl
    | some h =>
      dsimp only
      rw [respHeaderValues, lookup_canonicalHeaderKey (hs.respReceived h hh)]
      split
      · rfl
      · simp only [nameGlobMatch_eq]
        rfl
  | cookie name values =>
    rw [projectLeaf, matchLeaf, hr.parseCookies, hr.cookieValue, Leaf.compile, Matcher.matches]
    cases values with
    | nil => simp [Request.cookieNames, any_eq]
    | cons v vs => rfl
  | cookieGlob namePrefix =>
    rw [projectLeaf, matchLeaf, hr.parseCookies, Leaf.compile, Matcher.matches, Request.cookieNames,
      List.any_map]
    rfl
  | cookieJSON name jsonPath values =>
    rw [Leaf.Agrees, hr.parseCookies] at hl
    rw [projectLeaf, matchLeaf, hr.parseCookies, Leaf.compile, Matcher.matches]
    cases hck : (lenientCookies c.req.header).find? (·.name = name) with
    | none => rfl
    | some ck => exact congrArg some (hl ck hck)
  | headerJSON name jsonPath values =>
    rw [Leaf.compile, Matcher.matches, ← hr.headerValues]
    exact congrArg some (Bool.eq_iff_iff.mpr (by
      simp only [List.any_eq_true]
      exact exists_congr fun v => and_congr_right fun hv => by rw [hl v hv]))
  | setCookie names =>
    rw [hs.respHeader] at hl
    rw [projectLeaf, matchLeaf, hs.respHeader, Leaf.compile, Matcher.matches]
    cases hh : c.respHeader with
    | none => rfl
    | some h =>
      dsimp only
      rw [hl h hh]
      cases names <;> simp
  | geo gran values =>
    simp only [projectLeaf, matchLeaf, hr.geo, hr.geoContinent, hr.geoRegion, Leaf.compile,
      Matcher.matches]
    cases gran <;> dsimp only <;> split <;> simp [*]
  | queryPresent names nonEmpty =>
    rw [projectLeaf, matchLeaf, hr.query]
    simp only [nameGlobMatch_eq, some.injEq]
    congr 1
    funext q
    by_cases hne : nonEmpty = []
    · simp [hne]
    · have hempty (v : Str) : decide (v = []) = v.isEmpty := by cases v <;> rfl
      simp [hne, hempty]
  | query name values =>
    rw [projectLeaf, matchLeaf, hr.query, Leaf.compile, Matcher.matches]
    cases c.req.query.lookup name with
    | none => rfl
    | some vals => cases values <;> simp
  | ip prefixes | upstreamHealthy pools => exact hl.elim

end Leaves

/-! ## Matchers -/

section Stands

variable (ir : Ir) (P : Leaf Str → Prop)

mutual

/-- Below a matcher, every name stands for what it was written for, and the leaves have a property. -/
def PlanMatcher.Stands : PlanMatcher → Prop
  | .leaf l => P l
  | .classify token rows default _ _ =>
    ∃ cl, ir.classifiers.lookup token = some cl ∧ cl.default = default ∧ RowsStand rows cl.rows
  | .all terms => TermsStand terms

def ConjStands : List (Str × PlanMatcher) → List Str → Prop
  | [], names => names = []
  | (_, m) :: conj, names =>
    ∃ name rest, names = name :: rest ∧ ir.matchers.lookup name = some (projectMatcher m) ∧
      m.Stands ∧ ConjStands conj rest

def RowsStand : List (List (Str × PlanMatcher) × Str) → List (List Str × Str) → Prop
  | [], views => views = []
  | (conj, value) :: rows, views =>
    ∃ names rest, views = (names, value) :: rest ∧ ConjStands conj names ∧ RowsStand rows rest

def TermsStand : List ((Str × PlanMatcher) × Bool) → Prop
  | [] => True
  | ((name, m), _) :: terms =>
    ir.matchers.lookup name = some (projectMatcher m) ∧ m.Stands ∧ TermsStand terms

end

end Stands

mutual

def PlanMatcher.height : PlanMatcher → Nat
  | .leaf _ => 1
  | .classify _ rows _ _ _ => rowsHeight rows + 1
  | .all terms => termsHeight terms + 1

def conjHeight : List (Str × PlanMatcher) → Nat
  | [] => 0
  | (_, m) :: conj => max m.height (conjHeight conj)

def rowsHeight : List (List (Str × PlanMatcher) × Str) → Nat
  | [] => 0
  | (conj, _) :: rows => max (conjHeight conj) (rowsHeight rows)

def termsHeight : List ((Str × PlanMatcher) × Bool) → Nat
  | [] => 0
  | ((_, m), _) :: terms => max m.height (termsHeight terms)

end

section Simulation

variable {E : Engines} {js : Js} {ir : Ir} {c : MatchContext} {i : Ctx}

mutual

/-- **A matcher is evaluated as on the server**, if the stack is deep enough, its names stand and the
libraries agree about its leaves. -/
theorem matchOne_project (hs : SameContext c i) (m : PlanMatcher)
    (hm : m.Stands ir (Leaf.Agrees E js i.req i.respHeader)) {depth : Nat} (hd : m.height ≤ depth) :
    matchOne js ir i depth (projectMatcher m) = some ((m.compile E).matches c) := by
  cases m with
  | leaf l =>
    rw [height] at hd
    obtain ⟨n, rfl⟩ : ∃ n, depth = n + 1 := ⟨depth - 1, by omega⟩
    rw [projectMatcher, matchOne, PlanMatcher.compile]
    exact matchLeaf_project hs hm
  | classify token rows default value negate =>
    rw [height] at hd
    obtain ⟨n, rfl⟩ : ∃ n, depth = n + 1 := ⟨depth - 1, by omega⟩
    obtain ⟨cl, hcl, rfl, hrows⟩ := hm
    rw [projectMatcher, matchOne, classifyResolve, hcl]
    dsimp only
    rw [rowsResolve_project hs rows cl.rows hrows (Nat.le_of_succ_le_succ hd), map_some,
      PlanMatcher.compile, Matcher.matches]
    cases negate <;> simp
  | all terms =>
    rw [height] at hd
    obtain ⟨n, rfl⟩ : ∃ n, depth = n + 1 := ⟨depth - 1, by omega⟩
    rw [projectMatcher, matchOne, PlanMatcher.compile, Matcher.matches]
    exact termsHold_project hs terms hm (Nat.le_of_succ_le_succ hd)

theorem conjHolds_project (hs : SameContext c i) (conj : List (Str × PlanMatcher)) (names : List Str)
    (h : ConjStands ir (Leaf.Agrees E js i.req i.respHeader) conj names) {depth : Nat}
    (hd : conjHeight conj ≤ depth) :
    conjHolds ir (matchOne js ir i depth) names = some (conjMatches c (compileConj E conj)) := by
  cases conj with
  | nil =>
    obtain rfl : names = [] := h
    rw [conjHolds, compileConj, conjMatches]
  | cons head conj =>
    obtain ⟨name₀, m⟩ := head
    obtain ⟨name, rest, rfl, hlookup, hm, hconj⟩ := h
    rw [conjHeight, max_le_iff] at hd
    rw [conjHolds, hlookup, compileConj, conjMatches]
    dsimp only
    rw [matchOne_project hs m hm hd.1]
    dsimp only
    rw [conjHolds_project hs conj rest hconj hd.2]
    split <;> rfl

theorem rowsResolve_project (hs : SameContext c i) (rows : List (List (Str × PlanMatcher) × Str))
    (views : List (List Str × Str))
    (h : RowsStand ir (Leaf.Agrees E js i.req i.respHeader) rows views) {default : Str} {depth : Nat}
    (hd : rowsHeight rows ≤ depth) :
    rowsResolve ir (matchOne js ir i depth) default views =
      some (resolveRows c default (compileRows E rows)) := by
  cases rows with
  | nil =>
    obtain rfl : views = [] := h
    rw [rowsResolve, compileRows, resolveRows]
  | cons head rows =>
    obtain ⟨conj, value⟩ := head
    obtain ⟨names, rest, rfl, hconj, hrows⟩ := h
    rw [rowsHeight, max_le_iff] at hd
    rw [rowsResolve, conjHolds_project hs conj names hconj hd.1, compileRows, resolveRows]
    dsimp only
    rw [rowsResolve_project hs rows rest hrows hd.2]
    split <;> rfl

theorem termsHold_project (hs : SameContext c i) (terms : List ((Str × PlanMatcher) × Bool))
    (h : TermsStand ir (Leaf.Agrees E js i.req i.respHeader) terms) {depth : Nat}
    (hd : termsHeight terms ≤ depth) :
    termsHold ir (matchOne js ir i depth) (terms.map fun t => (t.1.1, t.2)) =
      some (respondTermsMatch c (compileTerms E terms)) := by
  cases terms with
  | nil => rw [map_nil, termsHold, compileTerms, respondTermsMatch]
  | cons head terms =>
    obtain ⟨⟨name, m⟩, negate⟩ := head
    obtain ⟨hlookup, hm, hterms⟩ := h
    rw [termsHeight, max_le_iff] at hd
    rw [map_cons, termsHold, hlookup, compileTerms, respondTermsMatch]
    dsimp only
    rw [matchOne_project hs m hm hd.1]
    dsimp only
    rw [termsHold_project hs terms hterms hd.2]
    split <;> rfl

end

/-! ## Scopes -/

def ScopeStands (ir : Ir) (P : Leaf Str → Prop) (s : PlanScope) : Prop :=
  ∀ ms ∈ s, ∀ m ∈ ms, (m.1 ≠ [] → ir.matchers.lookup m.1 = some (projectMatcher m.2)) ∧
    m.2.Stands ir P

def scopeHeight (s : PlanScope) : Nat := conjHeight (s.getD [])

theorem height_le_conjHeight {conj : List (Str × PlanMatcher)} {m : Str × PlanMatcher}
    (hm : m ∈ conj) : m.2.height ≤ conjHeight conj := by
  induction conj with
  | nil => cases hm
  | cons head conj ih =>
    rcases mem_cons.mp hm with rfl | hm
    · exact le_max_left _ _
    · exact (ih hm).trans (le_max_right _ _)

theorem compileConj_eq (E : Engines) (conj : List (Str × PlanMatcher)) :
    compileConj E conj = conj.map fun m => m.2.compile E := by
  induction conj with
  | nil => rw [compileConj, map_nil]
  | cons head conj ih => rw [compileConj, ih, map_cons]

theorem anyName_eq {eval : IrMatcher → Option Bool} {f : Str → Bool} {names : List Str}
    (h : ∀ name ∈ names, ∃ m, ir.matchers.lookup name = some m ∧ eval m = some (f name)) :
    anyName ir eval names = some (names.any f) := by
  induction names with
  | nil => rfl
  | cons name names ih =>
    obtain ⟨m, hlookup, heval⟩ := h name mem_cons_self
    rw [anyName, hlookup]
    dsimp only
    rw [heval, ih fun n hn => h n (mem_cons_of_mem _ hn), any_cons]
    cases f name <;> rfl

theorem anyInline_eq {eval : IrMatcher → Option Bool} {α : Type} {g : α → IrMatcher} {f : α → Bool}
    {ms : List α} (h : ∀ m ∈ ms, eval (g m) = some (f m)) :
    anyInline eval (ms.map g) = some (ms.any f) := by
  induction ms with
  | nil => rfl
  | cons m ms ih =>
    rw [map_cons, anyInline, h m mem_cons_self, ih fun n hn => h n (mem_cons_of_mem _ hn), any_cons]
    cases f m <;> rfl

theorem scopeMatches_project (hs : SameContext c i) (s : PlanScope)
    (h : ScopeStands ir (Leaf.Agrees E js i.req i.respHeader) s) {depth : Nat}
    (hd : scopeHeight s ≤ depth) :
    scopeMatches js ir i depth (projectScope s) = some (c.scopeMatches (compileScope E s)) := by
  cases s with
  | none => rfl
  | some ms =>
    have heval (m : Str × PlanMatcher) (hm : m ∈ ms) :
        matchOne js ir i depth (projectMatcher m.2) = some ((m.2.compile E).matches c) :=
      matchOne_project hs m.2 (h ms rfl m hm).2 ((height_le_conjHeight hm).trans hd)
    -- what a name stands for
    let value (name : Str) : Bool :=
      (((ir.matchers.lookup name).bind (matchOne js ir i depth)).getD false)
    have hvalue (m : Str × PlanMatcher) (hm : m ∈ ms) (hname : m.1 ≠ []) :
        value m.1 = (m.2.compile E).matches c := by
      simp only [value, (h ms rfl m hm).1 hname, bind_some, heval m hm, getD_some]
    have hnames : anyName ir (matchOne js ir i depth) (projectScope (some ms)).names =
        some ((projectScope (some ms)).names.any value) := by
      apply anyName_eq
      intro name hname
      rw [projectScope, mem_insertionSort, List.mem_map] at hname
      obtain ⟨m, hm, rfl⟩ := hname
      obtain ⟨hm, hne⟩ := mem_filter.mp hm
      have hne : m.1 ≠ [] := by simpa using hne
      exact ⟨_, (h ms rfl m hm).1 hne, by rw [heval m hm, hvalue m hm hne]⟩
    have hinline : anyInline (matchOne js ir i depth) (projectScope (some ms)).inline =
        some ((ms.filter fun m => m.1 = []).any fun m => (m.2.compile E).matches c) :=
      anyInline_eq fun m hm => heval m (mem_of_mem_filter hm)
    have hany : (projectScope (some ms)).names.any value =
        (ms.filter fun m => m.1 ≠ []).any fun m => (m.2.compile E).matches c := by
      rw [projectScope, (perm_insertionSort _ _).any_eq, List.any_map]
      refine Bool.eq_iff_iff.mpr ?_
      simp only [List.any_eq_true]
      refine exists_congr fun m => and_congr_right fun hm => ?_
      obtain ⟨hm, hne⟩ := mem_filter.mp hm
      rw [Function.comp_apply, hvalue m hm (by simpa using hne)]
    have hsplit : (ms.any fun m => (m.2.compile E).matches c) =
        (((ms.filter fun m => m.1 ≠ []).any fun m => (m.2.compile E).matches c) ||
          (ms.filter fun m => m.1 = []).any fun m => (m.2.compile E).matches c) := by
      rw [Bool.eq_iff_iff, Bool.or_eq_true]
      simp only [List.any_eq_true, mem_filter, decide_eq_true_eq, ← exists_or]
      exact exists_congr fun m => by tauto
    rw [scopeMatches, hnames]
    rw [hinline, hany, compileScope, map_some, MatchContext.scopeMatches, compileConj_eq,
      List.any_map]
    refine Eq.trans ?_ (congrArg some hsplit).symm
    cases (ms.filter fun m => m.1 ≠ []).any fun m => (m.2.compile E).matches c <;> rfl

end Simulation

end Cadish.Edge
