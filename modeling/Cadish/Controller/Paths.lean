import Cadish.Controller.Generated
import Cadish.Pipeline.Glob

/-!
# Tenant paths

A rule names a path, and the controllers write it as a `path` matcher: an exact path as one pattern,
a prefix as two. In a `path` matcher `*` is pattern syntax, and quotes do not change that. **The
matcher accepts the paths that the rule names if and only if the path has no `*`**
(`pathMatcher_literal_iff`).
-/

namespace Cadish

open List Option Str PathSet

namespace Controller

open Cadishfile

/-! ## Matchers of requests -/

def requestTypes : List Str :=
  [lit "path", lit "header", lit "header_regex", lit "method", lit "query"]

/-- `compileMatcher`, of these types. What a regular expression accepts is a parameter. -/
def compileRequestMatcher (regexp : Str → Option Pattern) (type : Str) (args : List Str) :
    Option Matcher :=
  if type = lit "path" then
    if args = [] then none else some (.path (ofPatterns args).matches)
  else if type = lit "header" then
    match args with
    | [] => none
    | name :: values => some (.header name values)
  else if type = lit "header_regex" then
    match args with
    | name :: re :: more =>
      if name = [] then none else (regexp (re :: more).flatten).map (.headerRegex name)
    | _ => none
  else if type = lit "method" then
    if args = [] then none else some (.method (args.map toUpper))
  else if type = lit "query" then
    match args with
    | [] => none
    | name :: values => some (.query name values)
  else none

def CompilesRequests (g : PatternGrammar) (regexp : Str → Option Pattern) : Prop :=
  ∀ type ∈ requestTypes, ∀ args, g.compileMatcher type args = compileRequestMatcher regexp type args

/-! ## Paths -/

inductive PathKind where
  | pathExact
  | pathPrefix
deriving DecidableEq, Repr

def PathKind.covers (kind : PathKind) (p q : Str) : Bool :=
  match kind with
  | .pathExact => q == p
  | .pathPrefix => q == p || hasPrefix q (p ++ lit "/")

def PathKind.args (kind : PathKind) (p : Str) : List Str :=
  match kind with
  | .pathExact => [p]
  | .pathPrefix => [p, p ++ lit "/*"]

def pathMatcherArgs (path : Str) : PathKind → Str
  | .pathExact => lit "path " ++ quoteArg path
  | .pathPrefix => lit "path " ++ quoteArg path ++ lit " " ++ quoteArg (path ++ lit "/*")

def trimSlashes (p : Str) : Str := (p.reverse.dropWhile fun b => b == byte '/').reverse

end Controller

namespace Gateway

open Controller

def normalizePath (p : Str) : Str :=
  let p := trimSpace p
  if p = [] then lit "/"
  else if 1 < p.length then
    let p := trimSlashes p
    if p = [] then lit "/" else p
  else p

end Gateway

namespace Ingress

open Controller

inductive PathType where
  | pathExact
  | pathPrefix
  | implementationSpecific
deriving DecidableEq, Repr

def PathType.kind : PathType → PathKind
  | .pathExact => .pathExact
  | .pathPrefix | .implementationSpecific => .pathPrefix

def normalizePath (p : Str) (pt : PathType) : Str :=
  let p := trimSpace p
  if p = [] then lit "/"
  else if pt = .pathExact then p
  else if 1 < p.length then
    let p := trimSlashes p
    if p = [] then lit "/" else p
  else p

end Ingress

namespace Controller

open Cadishfile

inductive Accepted : Str → PathKind → Prop
  | ingress {p : Str} {pt : Ingress.PathType}
    (h : containsEnvPlaceholder (Ingress.normalizePath p pt) = false) :
    Accepted (Ingress.normalizePath p pt) pt.kind
  | gateway {p : Str} {kind : PathKind} (h : containsEnvPlaceholder (Gateway.normalizePath p) = false) :
    Accepted (Gateway.normalizePath p) kind

def pathSite (path : Str) (kind : PathKind) : Str :=
  lit "host \x7b\n\t@r0 " ++ pathMatcherArgs path kind ++ lit "\n\x7d\n"

def compiledPath (g : PatternGrammar) (lookup : Environment) (path : Str) (kind : PathKind) :
    Option Matcher := do
  let file ← parse (pathSite path kind)
  match (substituteEnv lookup file).sites with
  | [site] => do
    let v ← vocabulary g site.items
    v.matchers.lookup (lit "r0")
  | _ => none

/-! ## What is compiled -/

section

variable {g : PatternGrammar} {regexp : Str → Option Pattern} {lookup : Environment} {p : Str}
  {kind : PathKind}

theorem Accepted.guarded (h : Accepted p kind) : containsEnvPlaceholder p = false := by
  cases h with
  | ingress h | gateway h => exact h

theorem pathSite_eq : pathSite p kind =
    writtenLines (lit "host") [lit "@r0" :: lit "path" :: (kind.args p).map quoteArg] := by
  cases kind with
  | pathExact | pathPrefix =>
    simp [pathSite, pathMatcherArgs, writtenLines, PathKind.args, Str.join, lit]

theorem guarded_args (h : containsEnvPlaceholder p = false) :
    ∀ a ∈ kind.args p, containsEnvPlaceholder a = false := by
  have hbelow : containsEnvPlaceholder (p ++ lit "/*") = false :=
    containsEnvPlaceholder_append h (by decide)
  cases kind with
  | pathExact => simpa [PathKind.args] using h
  | pathPrefix => simpa [PathKind.args] using ⟨h, hbelow⟩

theorem printable_args (h : Printable p) : ∀ a ∈ kind.args p, Printable a := by
  have hbelow : Printable (p ++ lit "/*") := printable_append h (by decide)
  cases kind with
  | pathExact => simpa [PathKind.args] using h
  | pathPrefix => simpa [PathKind.args] using ⟨h, hbelow⟩

/-- The row that the text is read as: invalid characters are replaced. -/
def pathRow (p : Str) (kind : PathKind) : Row :=
  .matcherDef (lit "r0") (lit "path") ((kind.args p).map fun a => ⟨toValidRunes 0 a, isQuoted a⟩)

theorem readsAs_pathRow (h : Printable p) :
    ReadsAs (lit "@r0" :: lit "path" :: (kind.args p).map quoteArg) (pathRow p kind) where
  spells := by
    have hname : Plain (lit "@r0") := by decide
    have htype : Plain (lit "path") := by decide
    refine .cons hname.word.spells (.cons htype.word.spells ?_)
    rw [List.map_map, List.forall₂_map_left_iff, List.forall₂_map_right_iff]
    refine List.forall₂_same.mpr fun a ha => ?_
    intro start s hs
    exact lexFrom_quoteArg (printable_args h a ha) hs.endsWord
  formed := ⟨by decide, by decide⟩

theorem plainAddress_host : PlainAddress (lit "host") where
  ne_nil := by decide
  plain := (show Plain (lit "host") by decide).2
  single := by decide
  notDef := by decide

theorem compiledPath_printable (hg : CompilesRequests g regexp) (hp : Printable p)
    (h : containsEnvPlaceholder p = false) :
    compiledPath g lookup p kind =
      some (.path (ofPatterns ((kind.args p).map (toValidRunes 0))).matches) := by
  have hparse : parse (pathSite p kind) = some ⟨none, [⟨[lit "host"], [(pathRow p kind).node]⟩], []⟩ := by
    rw [pathSite_eq]
    exact parse_writtenLines (.cons (readsAs_pathRow hp) .nil) plainAddress_host
  have hguarded : (pathRow p kind).Guarded := by
    refine List.forall_mem_map.mpr fun a ha => ?_
    exact containsEnvPlaceholder_sameAscii (sameAscii_runes a) (guarded_args h a ha)
  have henv : substituteNodes lookup [(pathRow p kind).node] = [(pathRow p kind).node] :=
    @substituteNodes_rows [pathRow p kind] (forall_mem_singleton.mpr hguarded) lookup
  have hargs : rawArgs (((kind.args p).map fun a => (⟨toValidRunes 0 a, isQuoted a⟩ : Arg)).map
      Arg.word) = (kind.args p).map (toValidRunes 0) := by
    rw [rawArgs, List.map_map, List.map_map]
    rfl
  have hne : (kind.args p).map (toValidRunes 0) ≠ [] := by
    cases kind <;> exact cons_ne_nil _ _
  have hmatcher : g.compileMatcher (lit "path") ((kind.args p).map (toValidRunes 0)) =
      some (.path (ofPatterns ((kind.args p).map (toValidRunes 0))).matches) := by
    rw [hg (lit "path") (by decide)]
    simp [compileRequestMatcher, hne]
  obtain ⟨ms, hms⟩ : ∃ ms : FinMap Str Matcher, ms = (∅ : FinMap Str Matcher).insert (lit "r0")
      (.path (ofPatterns ((kind.args p).map (toValidRunes 0))).matches) := ⟨_, rfl⟩
  have hcollect : Collected.item g {} (pathRow p kind).node.item = some (collected ms [] []) := by
    change Collected.matcherDef g {} (lit "r0") (lit "path") _ = _
    rw [Collected.matcherDef, hargs, hmatcher, hms]
    rfl
  have hvocabulary : vocabulary g [(pathRow p kind).node.item] =
      some ⟨ms, ∅, ∅, [], none, [], []⟩ := by
    rw [vocabulary, foldlM_cons, hcollect]
    rfl
  rw [compiledPath, hparse]
  simp only [substituteEnv, henv, bind_eq_bind, bind_some, map_cons, map_nil,
    Site.items, hvocabulary, hms, AList.lookup_insert]

theorem mem_quoteArg {b : UInt8} (h : b ∈ p) : b ∈ quoteArg p := by
  have hescape (t : Str) (h : b ∈ t) : b ∈ escapeQuotes t := by
    induction t with
    | nil => exact h
    | cons c t ih =>
      rw [escapeQuotes]
      rcases mem_cons.mp h with rfl | h
      · split <;> simp
      · split <;> simp [ih h]
  rw [quoteArg]
  split
  · exact mem_cons_of_mem _ (mem_append_left _ (hescape p h))
  · exact h

theorem compiledPath_unprintable (h : ¬ Printable p) : compiledPath g lookup p kind = none := by
  have hsite : ¬ Printable (pathSite p kind) := by
    intro hsite
    refine h fun b hb => hsite b ?_
    cases kind with
    | pathExact | pathPrefix => simp [pathSite, pathMatcherArgs, mem_quoteArg hb]
  have hparse : parse (pathSite p kind) = none := by
    have hlexemes : lexemes (pathSite p kind) = none := by
      rw [lexemes, map_eq_none_iff, eq_none_iff_forall_ne_some]
      intro ts hts
      refine hsite ?_
      have hprintable := (tokenize_eq_some.mp hts).printable
      exact hprintable
    rw [parse, hlexemes]
    rfl
  rw [compiledPath, hparse]
  rfl

/-! ## What the matcher accepts -/

theorem matches_args (h : star ∉ p) (q : Str) :
    (ofPatterns (kind.args p)).matches q = kind.covers p q := by
  rw [Bool.eq_iff_iff, matches_iff]
  cases kind with
  | pathExact =>
    rw [PathKind.args, PathKind.covers, beq_iff_eq, ← wild_literal h]
    simp
  | pathPrefix =>
    have hbelow : p ++ lit "/*" = (p ++ lit "/") ++ [star] := by
      rw [append_assoc]
      rfl
    have hslash : star ∉ p ++ lit "/" := by
      rw [mem_append, not_or]
      exact ⟨h, by decide⟩
    rw [PathKind.args, PathKind.covers, Bool.or_eq_true, beq_iff_eq, hasPrefix,
      isPrefixOf_iff_prefix, ← wild_literal h, ← wild_prefix hslash, ← hbelow]
    simp

theorem map_toValidRunes_args (h : toValidRunes 0 p = p) :
    (kind.args p).map (toValidRunes 0) = kind.args p := by
  have hbelow : toValidRunes 0 (p ++ lit "/*") = p ++ lit "/*" := by
    rw [toValidRunes_append h]
    exact congrArg _ (by decide)
  cases kind with
  | pathExact => rw [PathKind.args, map_cons, map_nil, h]
  | pathPrefix => rw [PathKind.args, map_cons, map_cons, map_nil, h, hbelow]

theorem not_below {q : Str} (h : q.count (byte '/') ≤ p.count (byte '/')) :
    hasPrefix q (p ++ lit "/") = false := by
  by_contra hprefix
  obtain ⟨rest, rfl⟩ := isPrefixOf_iff_prefix.mp (Bool.not_eq_false _ ▸ hprefix)
  rw [count_append, count_append] at h
  have hone : (lit "/").count (byte '/') = 1 := by decide
  omega

theorem eq_of_covers {q : Str} (h : q.count (byte '/') ≤ p.count (byte '/'))
    (hcovers : kind.covers p q = true) : q = p := by
  cases kind with
  | pathExact => exact beq_iff_eq.mp hcovers
  | pathPrefix =>
    rw [PathKind.covers, not_below h, Bool.or_false] at hcovers
    exact beq_iff_eq.mp hcovers

/-- **A tenant path is matched literally if and only if it has no star**, and is text that the lexer
reads as it is. -/
theorem pathMatcher_literal_iff (hg : CompilesRequests g regexp) (lookup : Environment)
    (h : Accepted p kind) :
    (∃ paths, compiledPath g lookup p kind = some (.path paths) ∧ ∀ q, paths q = kind.covers p q) ↔
      star ∉ p ∧ Printable p ∧ toValidRunes 0 p = p := by
  constructor
  · rintro ⟨paths, hcompiled, hliteral⟩
    by_cases hp : Printable p
    · rw [compiledPath_printable hg hp h.guarded] at hcompiled
      obtain rfl := Matcher.path.inj (some.inj hcompiled)
      have haccepts {q : Str} (hwild : Wild (toValidRunes 0 p) q) : kind.covers p q = true := by
        rw [← hliteral, matches_iff]
        refine ⟨toValidRunes 0 p, List.mem_map_of_mem ?_, hwild⟩
        cases kind <;> exact mem_cons_self
      have hvalid : toValidRunes 0 p = p :=
        eq_of_covers ((sameAscii_runes p).count_eq (by decide)).le (haccepts (wild_self _))
      refine ⟨fun hstar => ?_, hp, hvalid⟩
      -- the path without its stars is accepted too
      rw [hvalid] at haccepts
      have hcount : (p.filter fun b => b ≠ star).count (byte '/') ≤ p.count (byte '/') :=
        filter_sublist.count_le _
      have hfilter := eq_of_covers hcount (haccepts (wild_filter p))
      have hmem := filter_eq_self.mp hfilter star hstar
      simp at hmem
    · rw [compiledPath_unprintable hp] at hcompiled
      cases hcompiled
  · rintro ⟨hstar, hp, hvalid⟩
    refine ⟨_, compiledPath_printable hg hp h.guarded, fun q => ?_⟩
    rw [map_toValidRunes_args hvalid, matches_args hstar]

end

variable (regexp : Str → Option Pattern)

def requestGrammar : PatternGrammar where
  isMatcherType := requestTypes.elem
  compileMatcher := compileRequestMatcher regexp
  newNameGlobSet := fun names name => names.elem name

theorem compilesRequests_requestGrammar :
    CompilesRequests (requestGrammar regexp) regexp := fun _ _ _ => rfl

def siteGrammar : Grammar where
  toPatternGrammar := requestGrammar regexp
  compileRedirect _ _ _ := none
  purgePattern _ _ _ := []
  compileTTL _ _ := none
  compileRateLimit _ _ _ := none
  compileHeader _ _ := none
  compileAside _ _ := none
  knownDirective := [lit "upstream", lit "tls"].elem

theorem pathMatcher_literal_img :
    Accepted (lit "/img") .pathPrefix ∧
      ∃ paths, compiledPath (requestGrammar fun _ => none) (fun _ => none) (lit "/img") .pathPrefix =
        some (.path paths) ∧ ∀ q, paths q = PathKind.pathPrefix.covers (lit "/img") q := by
  have haccepted : Accepted (lit "/img") .pathPrefix :=
    @Accepted.ingress (lit "/img/") .pathPrefix (by decide)
  have hprintable : Printable (lit "/img") := by decide
  exact ⟨haccepted, (pathMatcher_literal_iff (compilesRequests_requestGrammar _) _ haccepted).mpr
    ⟨by decide, hprintable, by decide⟩⟩

theorem pathMatcher_star_img :
    Accepted (lit "/img*") .pathExact ∧
      (∃ paths, compiledPath (requestGrammar fun _ => none) (fun _ => none) (lit "/img*") .pathExact =
        some (.path paths) ∧ paths (lit "/imgs") = true) ∧
      PathKind.pathExact.covers (lit "/img*") (lit "/imgs") = false := by
  have hprintable : Printable (lit "/img*") := by decide
  have hcompiled := @compiledPath_printable (requestGrammar fun _ => none) (fun _ => none)
    (fun _ => none) (lit "/img*") .pathExact (compilesRequests_requestGrammar _) hprintable (by decide)
  exact ⟨@Accepted.ingress (lit "/img*") .pathExact (by decide), ⟨_, hcompiled, by decide⟩, by decide⟩

end Controller

end Cadish
