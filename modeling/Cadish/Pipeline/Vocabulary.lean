import Cadish.Cadishfile.Syntax
import Cadish.Lib.Lanes
import Cadish.Pipeline.CacheKey

/-!
# The vocabulary of a site

The first passes of `Compile` give names their meaning. Classifiers and `classify` matchers wait
until the statements are read and are resolved in the order of their dependencies; last come the
`all` matchers. Messages are left out, and the pattern languages are a parameter.
-/

namespace Cadish

open Cadishfile List Option Item Str

structure PatternGrammar where
  isMatcherType : Str → Bool
  compileMatcher : Str → List Str → Option Matcher
  newNameGlobSet : List Str → Pattern

def Matcher.isResponsePhase : Matcher → Bool
  | .contentType _ | .setCookie _ | .respHeader _ _ => true
  | _ => false

def Matcher.isAll : Matcher → Bool
  | .all _ => true
  | _ => false

/-! ## Texts -/

def cutString (sep : Str) : Str → Option (Str × Str)
  | [] => if sep = [] then some ([], []) else none
  | b :: s =>
    if hasPrefix (b :: s) sep then some ([], (b :: s).drop sep.length)
    else (cutString sep s).map fun r => (b :: r.1, r.2)

/-- A placeholder `{…}` that is not empty. -/
def isBraced (raw : Str) : Bool :=
  hasPrefix raw [byte '{'] && hasSuffix raw [byte '}'] && 2 < raw.length

def classifyTokenName (raw : Str) : Option Str :=
  let name := (raw.drop 1).dropLast
  if isBraced raw ∧ !name.any (fun b => b = byte '{' ∨ b = byte '}') then some name else none

variable (g : PatternGrammar) (d : Stmt) (c : Collected) (matchers : FinMap Str Matcher)
  (words : List Word)

def cutArrow : List Word × List Word := words.span fun w => w.raw ≠ lit "->"

def classifyArrowValue : Option Str :=
  match (cutArrow words).2 with
  | [_, value] => if value.raw = [] then none else some value.raw
  | _ => none

def Cadishfile.Word.refName (w : Word) : Str := if hasPrefix w.raw (lit "@") then w.raw.drop 1 else w.raw

/-- `and`, a connective without a meaning. -/
def Cadishfile.Word.isAnd (w : Word) : Bool := w.raw = lit "and" ∨ w.raw = lit "AND"

def parseSecRef (w : Word) : Option (Str × Bool) :=
  if hasPrefix w.raw (lit "!@") then some (w.raw.drop 2, true)
  else if hasPrefix w.raw (lit "@") then some (w.raw.drop 1, false)
  else none

def reservedNormalizerNames : List Str := [lit "sticky", lit "device", lit "geo", lit "tenant"]

/-! ## Normalizers -/

structure NormalizeBlock where
  source : Option NormSource := none
  mapping : FinMap Str Str := ∅
  default : Str := []

def normSource (kind name : Str) : Option NormSource :=
  if kind = lit "header" then some (.header name)
  else if kind = lit "cookie" then some (.cookie name)
  else if kind = lit "query" then some (.query name)
  else none

def NormalizeBlock.line (n : NormalizeBlock) (l : Line) : Option NormalizeBlock :=
  if l.name = lit "from" then
    match n.source, l.words with
    | none, [kind, name] => (normSource kind.raw name.raw).map fun s => { n with source := some s }
    | _, _ => none
  else if l.name = lit "map" then
    match cutArrow l.words with
    | (words, [_, bucket]) =>
      let values := words.flatMap fun w =>
        ((split (byte ',') w.raw).map trimSpace).filter (· ≠ [])
      if values = [] then none
      else some { n with mapping := values.foldl (fun m v => m.insert v bucket.raw) n.mapping }
    | _ => none
  else if l.name = lit "default" then
    match l.words with
    | [bucket] => some { n with default := bucket.raw }
    | _ => none
  else none

def compileNormalize : Option (Str × Normalizer) :=
  match d.words, d.block with
  | [name], some lines => do
    guard (name.raw ∉ reservedNormalizerNames)
    let n ← lines.foldlM NormalizeBlock.line {}
    let source ← n.source
    guard (n.mapping.keys ≠ [] ∨ n.default ≠ [])
    some (name.raw, ⟨source, n.mapping, n.default⟩)
  | _, _ => none

/-! ## Tenants -/

structure TenantBlock where
  source : Option (Option Str) := none
  rules : List (Str × Str) := []
  default : Str := []

def TenantBlock.line (t : TenantBlock) (l : Line) : Option TenantBlock :=
  if l.name = lit "from" then
    match t.source, rawArgs l.words with
    | none, [kind] => if kind = lit "host" then some { t with source := some none } else none
    | none, [kind, name] =>
      if kind = lit "header" then
        some { t with source := some (if name = [] then none else some name) }
      else none
    | _, _ => none
  else if l.name = lit "map" then
    match rawArgs l.words with
    | [pattern, arrow, name] =>
      if arrow = lit "->" then some { t with rules := t.rules ++ [(pattern.toLower, name)] } else none
    | _ => none
  else if l.name = lit "default" then
    match rawArgs l.words with
    | [name] => some { t with default := name }
    | _ => none
  else none

def compileTenantBlock : Option TenantResolver := do
  let t ← d.lines.foldlM TenantBlock.line {}
  let source ← t.source
  guard (t.rules ≠ [] ∨ t.default ≠ [])
  some ⟨source, t.rules, t.default⟩

/-- `stickyCookieOf`: the cookie of the first `sticky … cookie NAME` line of an upstream. -/
def stickyCookieOf : Str :=
  (d.lines.findSome? fun l =>
    if l.name = lit "sticky" then
      match l.words.dropWhile fun w => w.raw ≠ lit "cookie" with
      | _ :: name :: _ => some name.raw
      | _ => none
    else none).getD []

/-! ## Classifiers -/

def resolveRef (w : Word) : Option Matcher :=
  if w.ref then matchers.lookup w.refName else none

def compileConjunction :
    List Word → Option (List Matcher)
  | [] => none
  | w :: words =>
    if w.ref then ((w :: words).filter fun v => !v.isAnd).mapM (resolveRef matchers)
    else if g.isMatcherType w.raw then (g.compileMatcher w.raw (rawArgs words)).map fun m => [m]
    else none

/-- `compileClassifyRow`: `when @a @b -> VALUE`, of matchers that need no response. -/
def compileClassifyRow :
    Option (List Matcher × Str) := do
  let conj ← compileConjunction g matchers (cutArrow words).1
  let value ← classifyArrowValue words
  guard (!conj.any Matcher.isResponsePhase)
  some (conj, value)

/-- `compileDerivesFrom`: `cookie NAME… [forward|keep]`. A single name is a name. -/
def compileDerivesFrom : Option (List Str × Bool) :=
  match rawArgs words with
  | kind :: name :: names =>
    let modifier := names ≠ [] ∧ (names.getLast? = some (lit "forward") ∨ names.getLast? = some (lit "keep"))
    let cookies := if modifier then name :: names.dropLast else name :: names
    if kind = lit "cookie" ∧ [] ∉ cookies then some (cookies, modifier) else none
  | _ => none

structure ClassifyBlock where
  rows : List (List Matcher × Str) := []
  default : Option Str := none
  derivesFrom : List Str := []
  derivesForward : List Str := []
  stripped : List Str := []

def ClassifyBlock.line (c : ClassifyBlock)
    (l : Line) : Option ClassifyBlock :=
  if l.name = lit "when" then
    (compileClassifyRow g matchers l.words).map fun row => { c with rows := c.rows ++ [row] }
  else if l.name = lit "default" then do
    guard c.default.isNone
    let value ← classifyArrowValue l.words
    some { c with default := some value }
  else if l.name = lit "derives_from" then do
    let (cookies, forward) ← compileDerivesFrom l.words
    some { c with
      derivesFrom := c.derivesFrom ++ cookies
      derivesForward := if forward then c.derivesForward ++ cookies else c.derivesForward
      stripped := if forward then c.stripped else c.stripped ++ cookies }
  else none

/-- `compileClassify`. No cookie is both stripped and forwarded. -/
def compileClassify (d : Stmt) :
    Option (Str × Classifier) :=
  match d.words, d.block with
  | [token], some lines => do
    let name ← classifyTokenName token.raw
    guard (name ∉ reservedNormalizerNames)
    let c ← lines.foldlM (ClassifyBlock.line g matchers) {}
    guard (!c.stripped.any c.derivesForward.elem)
    guard (c.rows.length ≠ 0)
    let value ← c.default
    some (name, ⟨c.rows, value, c.derivesFrom, c.derivesForward⟩)
  | _, _ => none

/-- `classifyDirMatcherRefs`: the matchers the rows of a classifier refer to. -/
def classifyDirMatcherRefs : List Str :=
  (d.lines.filter fun l => l.name = lit "when").flatMap fun l =>
    (l.words.filter (·.ref)).map (·.refName)

def classifyMatcherToken : List Word → Option Str
  | [w] => do
    let (token, _) ← (cutString (lit "==") w.raw).or (cutString (lit "!=") w.raw)
    classifyTokenName token
  | _ => none

def parseClassifyTest (s : Str) : Option (Str × Str × Bool) := do
  let negate := (cutString (lit "!=") s).isSome
  let (left, right) ← cutString (if negate then lit "!=" else lit "==") s
  let name ← classifyTokenName left
  if right = [] then none else some (name, right, negate)

def compileClassifyMatcher (classifiers : FinMap Str Classifier) : List Word → Option Matcher
  | [w] => do
    let (token, value, negate) ← parseClassifyTest w.raw
    let cl ← classifiers.lookup token
    some (.classify cl.rows cl.default value negate)
  | _ => none

/-! ## The first loop -/

structure Collected where
  matchers : FinMap Str Matcher := ∅
  classifyMatchers : List (Str × List Word) := []
  allMatchers : List (Str × List Word) := []
  upstreamNames : List Str := []
  stickyCookie : Str := []
  normalizers : FinMap Str Normalizer := ∅
  classifyDirs : List Stmt := []
  tenant : Str := []
  tenantResolver : Option TenantResolver := none

def Collected.matcherDef (name type : Str) (words : List Word) :
    Option Collected :=
  if (c.matchers.lookup name).isSome then none
  else if type = lit "classify" then
    some { c with classifyMatchers := c.classifyMatchers ++ [(name, words)] }
  else if type = lit "all" then some { c with allMatchers := c.allMatchers ++ [(name, words)] }
  else (g.compileMatcher type (rawArgs words)).map fun m =>
    { c with matchers := c.matchers.insert name m }

def Collected.directive (d : Stmt) : Option Collected :=
  if d.name = lit "upstream" then
    some { c with
      upstreamNames := c.upstreamNames ++ rawArgs (d.words.take 1)
      stickyCookie := if c.stickyCookie = [] then stickyCookieOf d else c.stickyCookie }
  else if d.name = lit "cluster" then
    some { c with upstreamNames := c.upstreamNames ++ rawArgs (d.words.take 1) }
  else if d.name = lit "normalize" then do
    let (name, n) ← compileNormalize d
    guard (c.normalizers.lookup name).isNone
    some { c with normalizers := c.normalizers.insert name n }
  else if d.name = lit "classify" then some { c with classifyDirs := c.classifyDirs ++ [d] }
  else if d.name = lit "tenant" then
    match d.block, d.words with
    | some _, _ => do
      guard c.tenantResolver.isNone
      let t ← compileTenantBlock d
      some { c with tenantResolver := some t }
    | none, [name] => some { c with tenant := name.raw }
    | none, _ => none
  else some c

def Collected.item : Item → Option Collected
  | .matcherDef name type words => c.matcherDef g name type words
  | .directive d => c.directive d

/-! ## Dependencies -/

inductive ClassifyItem where
  | dir (d : Stmt)
  | mdef (name : Str) (words : List Word)

/-- What is resolved so far, and what is still to come. -/
structure Resolved where
  matchers : FinMap Str Matcher
  classifiers : FinMap Str Classifier
  pendMatcher : List Str
  pendToken : List Str

/-- `ready`: nothing it needs is still to come. What nobody defines is not waited for. -/
def Resolved.ready (r : Resolved) : ClassifyItem → Bool
  | .dir d => (classifyDirMatcherRefs d).all fun n => (r.matchers.lookup n).isSome || !r.pendMatcher.elem n
  | .mdef _ words =>
    (classifyMatcherToken words).all fun t => (r.classifiers.lookup t).isSome || !r.pendToken.elem t

def Resolved.compileItem (normalizers : FinMap Str Normalizer) (r : Resolved) :
    ClassifyItem → Option Resolved
  | .dir d => do
    let (name, cl) ← compileClassify g r.matchers d
    guard ((r.classifiers.lookup name).isNone ∧ (normalizers.lookup name).isNone)
    some { r with
      classifiers := r.classifiers.insert name cl
      pendToken := r.pendToken.filter (· ≠ name) }
  | .mdef name words => do
    let m ← compileClassifyMatcher r.classifiers words
    some { r with
      matchers := r.matchers.insert name m
      pendMatcher := r.pendMatcher.filter (· ≠ name) }

section Resolve

variable (g : PatternGrammar) (normalizers : FinMap Str Normalizer)

/-- An item of a round: it is compiled, or is left for the next round. -/
def Resolved.visit (s : Resolved × List ClassifyItem) (it : ClassifyItem) :
    Option (Resolved × List ClassifyItem) :=
  if s.1.ready it then (s.1.compileItem g normalizers it).map fun r => (r, s.2)
  else some (s.1, s.2 ++ [it])

/-- The rounds of `resolveClassifyDeps`. A round without progress is a cycle. -/
def Resolved.rounds : Nat → Resolved → List ClassifyItem → Option Resolved
  | _, r, [] => some r
  | 0, _, _ :: _ => none
  | n + 1, r, it :: its => do
    let (r', next) ← (it :: its).foldlM (Resolved.visit g normalizers) (r, [])
    if next.length = (it :: its).length then none else Resolved.rounds n r' next

end Resolve

/-- `resolveClassifyDeps`: a round for each item is enough. -/
def resolveClassifyDeps : Option Resolved :=
  let items := c.classifyDirs.map .dir ++ c.classifyMatchers.map fun m => .mdef m.1 m.2
  let tokens := c.classifyDirs.filterMap fun d =>
    match d.words with
    | [token] => classifyTokenName token.raw
    | _ => none
  Resolved.rounds g c.normalizers items.length
    ⟨c.matchers, ∅, c.classifyMatchers.map Prod.fst, tokens⟩ items

def allTerm (w : Word) : Option (Matcher × Bool) := do
  let (name, negate) ← parseSecRef w
  let m ← matchers.lookup name
  guard (!m.isAll ∧ !m.isResponsePhase)
  some (m, negate)

def resolveAllMatchers (defs : List (Str × List Word)) : Option (FinMap Str Matcher) :=
  defs.foldlM (fun ms d => do
    guard (d.2 ≠ [])
    let terms ← d.2.mapM (allTerm ms)
    some (ms.insert d.1 (.all terms))) matchers

structure Vocabulary where
  matchers : FinMap Str Matcher
  normalizers : FinMap Str Normalizer
  classifiers : FinMap Str Classifier
  tenant : Str
  tenantResolver : Option TenantResolver
  upstreamNames : List Str
  stickyCookie : Str

def Collected.vocabulary : Option Vocabulary := do
  let r ← resolveClassifyDeps g c
  let matchers ← resolveAllMatchers r.matchers c.allMatchers
  some ⟨matchers, c.normalizers, r.classifiers, c.tenant, c.tenantResolver, c.upstreamNames,
    c.stickyCookie⟩

def vocabulary (items : List Item) : Option Vocabulary := do
  let c ← items.foldlM (Collected.item g) {}
  c.vocabulary g

/-! ## A round for each item -/

section Rounds

variable {g : PatternGrammar} {normalizers : FinMap Str Normalizer}

theorem Resolved.visit_length {its : List ClassifyItem} {s t : Resolved × List ClassifyItem}
    (h : its.foldlM (Resolved.visit g normalizers) s = some t) :
    t.2.length ≤ s.2.length + its.length := by
  induction its generalizing s with
  | nil =>
    obtain rfl : s = t := some.inj h
    exact Nat.le_refl _
  | cons it its ih =>
    obtain ⟨u, hvisit, hrest⟩ := bind_eq_some_iff.mp h
    have hu : u.2.length ≤ s.2.length + 1 := by
      rw [Resolved.visit] at hvisit
      split at hvisit
      · obtain ⟨r, -, rfl⟩ := map_eq_some_iff.mp hvisit
        exact Nat.le_succ _
      · obtain rfl := some.inj hvisit
        simp
    have := ih hrest
    simp only [length_cons]
    omega

theorem Resolved.rounds_enough {n k : Nat} {r : Resolved} {its : List ClassifyItem}
    (hn : its.length ≤ n) (hk : its.length ≤ k) :
    Resolved.rounds g normalizers n r its = Resolved.rounds g normalizers k r its := by
  induction n generalizing k r its with
  | zero =>
    obtain rfl := length_eq_zero_iff.mp (Nat.le_zero.mp hn)
    cases k <;> rfl
  | succ n ih =>
    cases its with
    | nil => cases k <;> rfl
    | cons it its =>
      obtain ⟨k, rfl⟩ := Nat.exists_eq_add_one.mpr (Nat.lt_of_lt_of_le (Nat.succ_pos _) hk)
      simp only [Resolved.rounds]
      cases hround : (it :: its).foldlM (Resolved.visit g normalizers) (r, []) with
      | none => rfl
      | some t =>
        have hle := Resolved.visit_length hround
        simp only [bind_eq_bind, bind_some]
        split
        · rfl
        case isFalse hprogress =>
          simp only [length_nil] at hle hn hk hprogress
          exact ih (by omega) (by omega)

end Rounds

/-! ## What each name depends on -/

namespace Collected

variable {g : PatternGrammar} {c c' : Collected}

theorem matcherDef_eq {name type : Str} {words : List Word}
    (h : c.matcherDef g name type words = some c') : ∃ ms cs as,
      c' = { c with matchers := ms, classifyMatchers := cs, allMatchers := as } := by
  rw [matcherDef] at h
  split at h
  · cases h
  split at h
  · exact ⟨_, _, _, (some.inj h).symm⟩
  split at h
  · exact ⟨_, _, _, (some.inj h).symm⟩
  · obtain ⟨m, -, rfl⟩ := map_eq_some_iff.mp h
    exact ⟨_, _, _, rfl⟩

/-- What a directive leaves of the collection: the matchers, and what is not of its name. -/
structure Keeps (name : Str) (c c' : Collected) : Prop where
  matchers : (c'.matchers, c'.classifyMatchers, c'.allMatchers) =
    (c.matchers, c.classifyMatchers, c.allMatchers)
  upstreams : name ∉ [lit "upstream", lit "cluster"] →
    (c'.upstreamNames, c'.stickyCookie) = (c.upstreamNames, c.stickyCookie)
  normalizers : name ∉ [lit "normalize"] → c'.normalizers = c.normalizers
  classifyDirs : name ∉ [lit "classify"] → c'.classifyDirs = c.classifyDirs
  tenant : name ∉ [lit "tenant"] → (c'.tenant, c'.tenantResolver) = (c.tenant, c.tenantResolver)

theorem directive_keeps {d : Stmt} (h : c.directive d = some c') : Keeps d.name c c' := by
  simp only [directive] at h
  split_ifs at h
  -- the tenant is read from a block or from a word
  all_goals try split at h
  all_goals
    simp only [bind_eq_bind, bind_eq_some_iff, some.injEq, reduceCtorEq] at h <;>
      constructor <;> grind

theorem lane_matchers : Lane (Collected.item g)
    (fun c => (c.matchers, c.classifyMatchers, c.allMatchers)) isMatcherDef := by
  refine Lane.of_map ?_ ?_
  · intro s t a ha hpart
    cases a with
    | directive d => cases ha
    | matcherDef name type words =>
      obtain ⟨tm, tc, ta⟩ := t
      obtain ⟨rfl, rfl, rfl⟩ := hpart
      simp only [Collected.item, matcherDef]
      split
      · rfl
      split
      · rfl
      split
      · rfl
      · simp [Function.comp_def]
  · intro s a s' ha hs
    cases a with
    | matcherDef name type words => cases ha
    | directive d => exact (directive_keeps hs).matchers

theorem lane_named {τ : Type} {part : Collected → τ} {names : List Str}
    (hdef : ∀ c ms cs as,
      part { c with matchers := ms, classifyMatchers := cs, allMatchers := as } = part c)
    (hother : ∀ {c c' d}, d.name ∉ names → c.directive d = some c' → part c' = part c)
    (hown : ∀ {s t d}, d.name ∈ names → part s = part t →
      (s.directive d).map part = (t.directive d).map part) :
    Lane (Collected.item g) part (isNamed names) := by
  refine Lane.of_map ?_ ?_
  · intro s t a ha hpart
    cases a with
    | matcherDef name type words => cases ha
    | directive d => exact hown (elem_iff.mp ha) hpart
  · intro s a s' ha hs
    cases a with
    | matcherDef name type words =>
      obtain ⟨_, _, _, rfl⟩ := matcherDef_eq hs
      exact hdef _ _ _ _
    | directive d =>
      refine hother (fun hmem => ?_) hs
      rw [isNamed, elem_iff.mpr hmem] at ha
      cases ha

theorem lane_upstreams : Lane (Collected.item g) (fun c => (c.upstreamNames, c.stickyCookie))
    (isNamed [lit "upstream", lit "cluster"]) := by
  refine lane_named (fun _ _ _ _ => rfl) (fun hd h => (directive_keeps h).upstreams hd) ?_
  intro s t d hd hpart
  obtain ⟨hnames, hcookie⟩ := Prod.mk.inj hpart
  simp only [mem_cons, not_mem_nil, or_false] at hd
  obtain hd | hd := hd
  · rw [directive, directive, if_pos hd, if_pos hd, map_some, map_some, hnames, hcookie]
  · rw [directive, directive, hd, if_neg (by decide), if_pos rfl, if_neg (by decide), if_pos rfl,
      map_some, map_some, hnames, hcookie]

theorem lane_normalizers : Lane (Collected.item g) normalizers (isNamed [lit "normalize"]) := by
  refine lane_named (fun _ _ _ _ => rfl) (fun hd h => (directive_keeps h).normalizers hd) ?_
  intro s t d hd hpart
  have hd := mem_singleton.mp hd
  have hdir (c : Collected) : c.directive d = (do
      let n ← compileNormalize d
      guard (c.normalizers.lookup n.1).isNone
      some { c with normalizers := c.normalizers.insert n.1 n.2 }) := by
    rw [directive, hd, if_neg (by decide), if_neg (by decide), if_pos rfl]
  rw [hdir, hdir]
  cases compileNormalize d with
  | none => rfl
  | some n =>
    simp only [bind_eq_bind, bind_some, hpart]
    cases (guard (t.normalizers.lookup n.1).isNone : Option Unit) <;> rfl

theorem lane_classifyDirs : Lane (Collected.item g) classifyDirs (isNamed [lit "classify"]) := by
  refine lane_named (fun _ _ _ _ => rfl) (fun hd h => (directive_keeps h).classifyDirs hd) ?_
  intro s t d hd hpart
  have hd := mem_singleton.mp hd
  have hdir (c : Collected) : c.directive d = some { c with classifyDirs := c.classifyDirs ++ [d] } := by
    rw [directive, hd, if_neg (by decide), if_neg (by decide), if_neg (by decide), if_pos rfl]
  rw [hdir, hdir, map_some, map_some, hpart]

theorem lane_tenant : Lane (Collected.item g) (fun c => (c.tenant, c.tenantResolver))
    (isNamed [lit "tenant"]) := by
  refine lane_named (fun _ _ _ _ => rfl) (fun hd h => (directive_keeps h).tenant hd) ?_
  intro s t d hd hpart
  obtain ⟨htenant, hresolver⟩ := Prod.mk.inj hpart
  have hd := mem_singleton.mp hd
  simp +decide only [directive, hd, if_true, if_false]
  split
  · rw [hresolver]
    cases (guard t.tenantResolver.isNone : Option Unit) with
    | none => rfl
    | some _ =>
      cases compileTenantBlock d with
      | none => rfl
      | some r => exact congrArg (fun x => some (x, some r)) htenant
  · rw [map_some, map_some, hresolver]
  · rfl

end Collected

structure SameNames (items items' : List Item) : Prop where
  matchers : items.filter isMatcherDef = items'.filter isMatcherDef
  upstreams : items.filter (isNamed [lit "upstream", lit "cluster"]) =
    items'.filter (isNamed [lit "upstream", lit "cluster"])
  normalizers : items.filter (isNamed [lit "normalize"]) =
    items'.filter (isNamed [lit "normalize"])
  classifiers : items.filter (isNamed [lit "classify"]) =
    items'.filter (isNamed [lit "classify"])
  tenants : items.filter (isNamed [lit "tenant"]) = items'.filter (isNamed [lit "tenant"])

theorem Collected.items_eq {g : PatternGrammar} {items items' : List Item} {c c' : Collected}
    (h : SameNames items items') (hc : items.foldlM (Collected.item g) {} = some c)
    (hc' : items'.foldlM (Collected.item g) {} = some c') : c = c' := by
  have hmatchers := Collected.lane_matchers.part_eq rfl h.matchers hc hc'
  have hupstreams := Collected.lane_upstreams.part_eq rfl h.upstreams hc hc'
  have hnormalizers := Collected.lane_normalizers.part_eq rfl h.normalizers hc hc'
  have hclassifiers := Collected.lane_classifyDirs.part_eq rfl h.classifiers hc hc'
  have htenants := Collected.lane_tenant.part_eq rfl h.tenants hc hc'
  obtain ⟨_, _, _, _, _, _, _, _, _⟩ := c'
  obtain ⟨rfl, rfl, rfl⟩ := hmatchers
  obtain ⟨rfl, rfl⟩ := hupstreams
  obtain ⟨rfl, rfl⟩ := htenants
  obtain rfl := hnormalizers
  obtain rfl := hclassifiers
  rfl

theorem vocabulary_eq {g : PatternGrammar} {items items' : List Item} {v v' : Vocabulary}
    (h : SameNames items items') (hv : vocabulary g items = some v)
    (hv' : vocabulary g items' = some v') : v = v' := by
  obtain ⟨c, hc, hv⟩ := bind_eq_some_iff.mp hv
  obtain ⟨c', hc', hv'⟩ := bind_eq_some_iff.mp hv'
  obtain rfl := Collected.items_eq h hc hc'
  exact some.inj (hv.symm.trans hv')

end Cadish
