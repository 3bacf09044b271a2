import Cadish.Cadishfile.Written
import Cadish.Pipeline.Compile

/-!
# Generated sites

A generated site has upstreams, matchers, conjunctions of them, routes and answers with a status.
**The text is loaded as the statements say** (`loadSite_generated`): the first answer whose
references hold, else the pool of the first route that matches, else the first upstream. How a pool
picks a target is left out.
-/

namespace Cadish

open List Option

namespace Controller

open Cadishfile

/-! ## Statements -/

structure Ref where
  name : Str
  negate : Bool
deriving DecidableEq, Repr

def Ref.raw (r : Ref) : Str := if r.negate then lit "!@" ++ r.name else lit "@" ++ r.name

inductive Status where
  | notFound
  | serviceUnavailable
deriving DecidableEq, Repr

def Status.code : Status → Nat
  | .notFound => 404
  | .serviceUnavailable => 503

def Status.text : Status → Str
  | .notFound => lit "404"
  | .serviceUnavailable => lit "503"

inductive Gen where
  | tls (words : List Str)
  | upstream (name : Str) (targets : List Str)
  | matcher (name type : Str) (args : List Str)
  | all (name : Str) (terms : List Ref)
  | route (scope : Option Str) (upstream : Str)
  | respond (terms : List Ref) (status : Status)
deriving DecidableEq, Repr

namespace Gen

def row : Gen → Row
  | .tls words => .directive (lit "tls") (words.map plainArg)
  | .upstream name targets =>
    .nested (lit "upstream") [plainArg name] (lit "to") (targets.map plainArg)
  | .matcher name type args => .matcherDef name type (args.map quotedArg)
  | .all name terms => .matcherDef name (lit "all") (terms.map fun r => plainArg r.raw)
  | .route scope up =>
    .directive (lit "route") (scope.toList.map (fun n => plainArg (lit "@" ++ n)) ++
      [plainArg (lit "->"), plainArg up])
  | .respond terms status =>
    .directive (lit "respond") (terms.map (fun r => plainArg r.raw) ++ [plainArg status.text])

def item (s : Gen) : Item := s.row.node.item

def plain? : Gen → Option Str
  | .matcher name _ _ => some name
  | _ => none

def defines? : Gen → Option Str
  | .matcher name _ _ | .all name _ => some name
  | _ => none

def conjunction? : Gen → Option (Str × List Word)
  | .all name terms => some (name, terms.map fun r => (plainArg r.raw).word)
  | _ => none

def pool? : Gen → Option (Str × List Str)
  | .upstream name targets => some (name, targets)
  | _ => none

def respond? : Gen → Option (List Ref × Status)
  | .respond terms status => some (terms, status)
  | _ => none

def route? : Gen → Option (Option Str × Str)
  | .route scope up => some (scope, up)
  | _ => none

end Gen

def generatedSite (host : Str) (gs : List Gen) : Str := writtenSite host (gs.map Gen.row)

/-! ## Loading -/

def targetsOf (d : Stmt) : List Str :=
  (d.lines.filter fun l => l.name = lit "to").flatMap fun l => rawArgs l.words

/-- A statement, as `buildOrigins` reads it. An upstream has a name of its own. -/
def addOrigin (origins : List (Str × List Str)) : Item → Option (List (Str × List Str))
  | .matcherDef _ _ _ => some origins
  | .directive d =>
    if d.name = lit "upstream" then
      match d.words with
      | [] => none
      | name :: _ =>
        if (origins.lookup name.raw).isSome then none
        else some (origins ++ [(name.raw, targetsOf d)])
    else if d.name = lit "cluster" ∨ d.name = lit "origin" then none
    else some origins

structure LoadedSite where
  compiled : Compiled
  origins : List (Str × List Str)

variable (g : Grammar) (s : LoadedSite) (lookup : Environment) (text : Str) (req : Request)

/-- `LoadString`, of a text that is one site. A site without an upstream is refused. -/
def loadSite : Option LoadedSite := do
  let file ← parse text
  match (substituteEnv lookup file).sites with
  | [site] => do
    let compiled ← compile g site.addresses site.items
    let origins ← site.items.foldlM addOrigin []
    guard (origins ≠ [])
    some ⟨compiled, origins⟩
  | _ => none

inductive Outcome where
  | status (code : Nat)
  | pool (targets : List Str)
deriving DecidableEq, Repr

def LoadedSite.originFor (name : Str) : Option (List Str) :=
  (if name = [] then none else s.origins.lookup name).or (s.origins.head?.map (·.2))

def LoadedSite.answer : Option Outcome :=
  let d := s.compiled.pipeline.evalRequest req
  match d.synthetic, d.redirect with
  | some r, _ => some (.status r.status)
  | none, some _ => none
  | none, none => (s.originFor d.upstream).map .pool

def evaluate : Option Outcome :=
  (loadSite g lookup text).bind fun s => s.answer req

/-! ## Safe statements -/

/-- A word that is there and stands for itself. -/
def Plain (w : Str) : Prop := w ≠ [] ∧ ∀ b ∈ w, isPlainByte b = true

instance (w : Str) : Decidable (Plain w) := inferInstanceAs (Decidable (_ ∧ _))

/-- A value that is read back from its quoted form, whatever the environment is. -/
structure Quotable (t : Str) : Prop where
  printable : Printable t
  valid : toValidRunes 0 t = t
  guarded : containsEnvPlaceholder t = false

instance (t : Str) : Decidable (Quotable t) :=
  decidable_of_iff (Printable t ∧ toValidRunes 0 t = t ∧ containsEnvPlaceholder t = false)
    ⟨fun h => ⟨h.1, h.2.1, h.2.2⟩, fun h => ⟨h.printable, h.valid, h.guarded⟩⟩

/-- The words of the statement stand for themselves, and its values are read back. -/
def Gen.Safe : Gen → Prop
  | .tls words => ∀ w ∈ words, Plain w
  | .upstream name targets => Plain name ∧ ∀ t ∈ targets, Plain t
  | .matcher name type args =>
    Plain name ∧ Plain type ∧ type.head? ≠ some (Str.byte '@') ∧ ∀ a ∈ args, Quotable a
  | .all name terms => Plain name ∧ ∀ r ∈ terms, Plain r.name
  | .route scope up => (∀ n ∈ scope, Plain n) ∧ Plain up
  | .respond terms _ => ∀ r ∈ terms, Plain r.name

namespace Plain

variable {w : Str}

theorem brace (h : Plain w) : Str.byte '{' ∉ w := by
  intro hmem
  obtain ⟨-, -, -, -, -, -, -, hopen, -⟩ := isPlainByte_spec (h.2 _ hmem)
  exact hopen rfl

theorem word (h : Plain w) : PlainWord w := plainWord_of_forall h.1 h.2

theorem append {v : Str} (hv : Plain v) (hw : Plain w) : Plain (v ++ w) :=
  ⟨fun h => hv.1 (append_eq_nil_iff.mp h).1, fun b hb =>
    (mem_append.mp hb).elim (hv.2 b) (hw.2 b)⟩

end Plain

theorem containsPlaceholder_of_not_mem {w : Str} (h : Str.byte '{' ∉ w) :
    containsPlaceholder w = false := by
  induction w using containsPlaceholder.induct with
  | case1 => rfl
  | case2 b =>
    rw [containsPlaceholder, beq_eq_false_iff_ne]
    rintro rfl
    exact h mem_cons_self
  | case3 c w ih =>
    have h := not_mem_of_not_mem_cons (not_mem_of_not_mem_cons h)
    rw [containsPlaceholder, if_pos rfl, ih h]
  | case4 c w hb => exact absurd mem_cons_self h
  | case5 b c w hb hopen ih =>
    rw [containsPlaceholder, if_neg hb, if_neg hopen, ih (not_mem_of_not_mem_cons h)]

def SafeArg (a : Arg) : Prop := a.Written ∧ containsEnvPlaceholder a.raw = false

theorem Plain.arg {w : Str} (h : Plain w) : SafeArg (plainArg w) :=
  ⟨plainArg_written h.word, containsEnvPlaceholder_eq_false (.inl h.brace)⟩

theorem Quotable.arg {t : Str} (h : Quotable t) : SafeArg (quotedArg t) :=
  ⟨quotedArg_written h.printable h.valid, h.guarded⟩

theorem Ref.plain_raw {r : Ref} (h : Plain r.name) : Plain r.raw := by
  rw [Ref.raw]
  split <;> exact Plain.append (by decide) h

theorem Status.plain_text (status : Status) : Plain status.text := by
  cases status <;> decide

theorem plain_reference {n : Str} (h : Plain n) : Plain (lit "@" ++ n) := Plain.append (by decide) h

theorem forall_refs {terms : List Ref} (h : ∀ r ∈ terms, Plain r.name) :
    ∀ a ∈ terms.map fun r => plainArg r.raw, SafeArg a :=
  List.forall_mem_map.mpr fun r hr => (Ref.plain_raw (h r hr)).arg

theorem forall_safeArg {args : List Arg} (h : ∀ a ∈ args, SafeArg a) :
    (∀ a ∈ args, a.Written) ∧ ∀ a ∈ args, containsEnvPlaceholder a.raw = false :=
  forall₂_and.mp h

theorem badType_of_plain {type : Str} (h : Plain type) (hhead : type.head? ≠ some (Str.byte '@')) :
    badType type false = false := by
  have hat : Str.hasPrefix type (lit "@") = false := by
    cases type with
    | nil => rfl
    | cons b type =>
      have hb : b ≠ Str.byte '@' := fun hb => hhead (by rw [hb]; rfl)
      exact Bool.and_eq_false_iff.mpr (.inl (beq_eq_false_iff_ne.mpr hb.symm))
  rw [badType, hat, containsPlaceholder_of_not_mem h.brace, h.word.unquoted]
  rfl

theorem Gen.Safe.row {s : Gen} (h : s.Safe) : s.row.Written ∧ s.row.Guarded := by
  cases s with
  | tls words =>
    obtain ⟨hwritten, hguarded⟩ := forall_safeArg (List.forall_mem_map.mpr fun w hw => (h w hw).arg)
    exact ⟨⟨Plain.word (by decide), rfl, hwritten⟩, hguarded⟩
  | upstream name targets =>
    obtain ⟨hwritten, hguarded⟩ := forall_safeArg (List.forall_mem_map.mpr fun t ht => (h.2 t ht).arg)
    obtain ⟨hname, hguard⟩ := h.1.arg
    exact ⟨⟨⟨Plain.word (by decide), rfl, forall_mem_singleton.mpr hname⟩,
      Plain.word (by decide), rfl, hwritten⟩, forall_mem_singleton.mpr hguard, hguarded⟩
  | matcher name type args =>
    obtain ⟨hname, htype, hhead, hargs⟩ := h
    obtain ⟨hwritten, hguarded⟩ :=
      forall_safeArg (List.forall_mem_map.mpr fun a ha => (hargs a ha).arg)
    exact ⟨⟨(plain_reference hname).word, hname.1, htype.word, badType_of_plain htype hhead, hwritten⟩,
      hguarded⟩
  | all name terms =>
    obtain ⟨hwritten, hguarded⟩ := forall_safeArg (forall_refs h.2)
    exact ⟨⟨(plain_reference h.1).word, h.1.1, Plain.word (by decide), by decide, hwritten⟩, hguarded⟩
  | route scope up =>
    obtain ⟨hscope, hup⟩ := h
    have harrow : Plain (lit "->") := by decide
    obtain ⟨hwritten, hguarded⟩ := forall_safeArg (forall_mem_append.mpr
      ⟨List.forall_mem_map.mpr fun n hn => (plain_reference (hscope n (mem_toList.mp hn))).arg,
        forall_mem_cons.mpr ⟨harrow.arg, forall_mem_singleton.mpr hup.arg⟩⟩)
    exact ⟨⟨Plain.word (by decide), rfl, hwritten⟩, hguarded⟩
  | respond terms status =>
    obtain ⟨hwritten, hguarded⟩ := forall_safeArg (forall_mem_append.mpr
      ⟨forall_refs h, forall_mem_singleton.mpr status.plain_text.arg⟩)
    exact ⟨⟨Plain.word (by decide), rfl, hwritten⟩, hguarded⟩

/-! ## References -/

section

variable {n : Str} (hn : n ≠ [])

include hn

theorem word_reference : (plainArg (lit "@" ++ n)).word = ⟨lit "@" ++ n, true⟩ := by
  have hlooks : looksLikeRef (lit "@" ++ n) = true := by
    cases n with
    | nil => exact absurd rfl hn
    | cons b n =>
      have hlength : (lit "@" ++ b :: n).length = n.length + 2 := rfl
      exact Bool.and_eq_true_iff.mpr ⟨rfl, decide_eq_true (by omega)⟩
  simp [plainArg, Arg.word, Arg.kind, classifyArg, hlooks]

theorem isSecRefArg_raw (negate : Bool) : isSecRefArg (plainArg (Ref.raw ⟨n, negate⟩)).word = true := by
  cases negate with
  | false =>
    change isSecRefArg (plainArg (lit "@" ++ n)).word = true
    rw [word_reference hn]
    rfl
  | true => exact Bool.or_eq_true_iff.mpr (.inr rfl)

end

theorem parseSecRef_raw (r : Ref) : parseSecRef (plainArg r.raw).word = some (r.name, r.negate) := by
  obtain ⟨n, negate⟩ := r
  cases negate <;> rfl

/-! ## What the statements mean -/

def RequestOnly (m : Matcher) : Prop := ∀ c : MatchContext, m.matches c = m.matches ⟨c.req, [], none⟩

/-- What the names of the site stand for. -/
structure Meaning (g : PatternGrammar) (gs : List Gen) (σ : Str → Matcher) : Prop where
  nodup : (gs.filterMap Gen.defines?).Nodup
  plain : ∀ {name type args}, Gen.matcher name type args ∈ gs →
    type ≠ lit "classify" ∧ type ≠ lit "all" ∧ g.compileMatcher type args = some (σ name) ∧
      (σ name).isAll = false ∧ (σ name).isResponsePhase = false ∧ RequestOnly (σ name)
  all : ∀ {name terms}, Gen.all name terms ∈ gs → terms ≠ [] ∧
    σ name = .all (terms.map fun r => (σ r.name, r.negate)) ∧
      ∀ r ∈ terms, r.name ∈ gs.filterMap Gen.plain?
  route : ∀ {scope up}, Gen.route scope up ∈ gs →
    up ∈ (gs.filterMap Gen.pool?).map Prod.fst ∧ ∀ n ∈ scope, n ∈ gs.filterMap Gen.defines?
  respond : ∀ {terms status}, Gen.respond terms status ∈ gs → terms ≠ [] ∧
    ∀ r ∈ terms, r.name ∈ gs.filterMap Gen.defines?

section Vocabulary

variable {g : PatternGrammar} {σ : Str → Matcher}

variable {ms : FinMap Str Matcher} {k : Str} {gs : List Gen}

def collected (ms : FinMap Str Matcher) (alls : List (Str × List Word)) (names : List Str) :
    Collected where
  matchers := ms
  allMatchers := alls
  upstreamNames := names

variable (σ ms gs) in
def insertPlain : FinMap Str Matcher :=
  (gs.filterMap Gen.plain?).foldl (fun ms n => ms.insert n (σ n)) ms

variable {alls : List (Str × List Word)} {n : Str} {α : Type} {names : List Str} {s : Gen}

theorem mem_plain (h : n ∈ gs.filterMap Gen.plain?) :
    ∃ type args, Gen.matcher n type args ∈ gs := by
  obtain ⟨s, hs, hn⟩ := mem_filterMap.mp h
  cases s <;> cases hn
  exact ⟨_, _, hs⟩

theorem mem_defines (h : n ∈ gs.filterMap Gen.defines?) :
    (∃ type args, Gen.matcher n type args ∈ gs) ∨ ∃ terms, Gen.all n terms ∈ gs := by
  obtain ⟨s, hs, hn⟩ := mem_filterMap.mp h
  cases s <;> cases hn
  case matcher => exact .inl ⟨_, _, hs⟩
  case all => exact .inr ⟨_, hs⟩

theorem mem_respond {r : List Ref × Status} (h : r ∈ gs.filterMap Gen.respond?) :
    Gen.respond r.1 r.2 ∈ gs := by
  obtain ⟨s, hs, hr⟩ := mem_filterMap.mp h
  cases s <;> cases hr
  exact hs

theorem mem_route {r : Option Str × Str} (h : r ∈ gs.filterMap Gen.route?) : Gen.route r.1 r.2 ∈ gs := by
  obtain ⟨s, hs, hr⟩ := mem_filterMap.mp h
  cases s <;> cases hr
  exact hs

theorem filterMap_cons_toList (f : Gen → Option α) (s : Gen) (gs : List Gen) :
    (s :: gs).filterMap f = (f s).toList ++ gs.filterMap f := by
  rw [filterMap_eq_flatMap_toList, filterMap_eq_flatMap_toList, flatMap_cons]

theorem rawArgs_args {f : Str → Arg} (hf : ∀ a, (f a).word.raw = a) (args : List Str) :
    rawArgs ((args.map f).map Arg.word) = args := by
  simp [rawArgs, Function.comp_def, hf]

theorem collected_other (c : Collected) {name : Str} (words : List Word) (block : Option (List Line))
    (h : name ∉ [lit "upstream", lit "cluster", lit "normalize", lit "classify", lit "tenant"]) :
    c.directive ⟨name, words, block⟩ = some c := by
  simp only [mem_cons, not_mem_nil, or_false, not_or] at h
  obtain ⟨hup, hcluster, hnormalize, hclassify, htenant⟩ := h
  rw [Collected.directive, if_neg hup, if_neg hcluster, if_neg hnormalize, if_neg hclassify,
    if_neg htenant]

theorem collected_item (hnew : ∀ n ∈ s.defines?, ms.lookup n = none)
    (hplain : ∀ name type args, s = .matcher name type args → type ≠ lit "classify" ∧ type ≠ lit "all" ∧ g.compileMatcher type args = some (σ name)) :
    (collected ms alls names).item g s.item = some (collected (insertPlain σ ms [s])
      (alls ++ [s].filterMap Gen.conjunction?)
      (names ++ ([s].filterMap Gen.pool?).map Prod.fst)) := by
  have hnil : collected ms alls names = collected ms (alls ++ []) (names ++ []) := by
    rw [append_nil, append_nil]
  have hlookup {name : Str} (hname : name ∈ s.defines?) :
      ((collected ms alls names).matchers.lookup name).isSome = false := by
    rw [collected, hnew name hname]
    rfl
  cases s with
  | matcher name type args =>
    obtain ⟨hclassify, hall, hcompile⟩ := hplain name type args rfl
    change (collected ms alls names).matcherDef g name type _ =
      some (collected (ms.insert name (σ name)) (alls ++ []) (names ++ []))
    rw [Collected.matcherDef, rawArgs_args fun _ => rfl, hlookup rfl,
      if_neg hclassify, if_neg hall, hcompile, append_nil, append_nil]
    rfl
  | all name terms =>
    change (collected ms alls names).matcherDef g name (lit "all") _ =
      some (collected ms (alls ++ [(name, terms.map fun r => (plainArg r.raw).word)]) (names ++ []))
    rw [Collected.matcherDef, hlookup rfl, List.map_map, append_nil]
    rfl
  | upstream name targets =>
    change (collected ms alls names).directive ⟨lit "upstream", [(plainArg name).word], _⟩ =
      some (collected ms (alls ++ []) (names ++ [name]))
    rw [append_nil]
    rfl
  | tls words =>
    exact (@collected_other _ (lit "tls") _ _ (by decide)).trans (congrArg some hnil)
  | route scope up =>
    exact (@collected_other _ (lit "route") _ _ (by decide)).trans (congrArg some hnil)
  | respond terms status =>
    exact (@collected_other _ (lit "respond") _ _ (by decide)).trans (congrArg some hnil)

theorem insertPlain_append (ms : FinMap Str Matcher) (gs gs' : List Gen) :
    insertPlain σ ms (gs ++ gs') = insertPlain σ (insertPlain σ ms gs) gs' := by
  rw [insertPlain, filterMap_append, foldl_append]
  rfl

theorem lookup_insert_own (n : Str) (h : ms.lookup k = some (σ k)) :
    (ms.insert n (σ n)).lookup k = some (σ k) := by
  rw [FinMap.lookup_insert_ite]
  split
  case isTrue hk => rw [hk]
  case isFalse => exact h

theorem lookup_insertPlain (h : k ∈ gs.filterMap Gen.plain? ∨ ms.lookup k = some (σ k)) :
    (insertPlain σ ms gs).lookup k = some (σ k) := by
  rw [insertPlain]
  generalize gs.filterMap Gen.plain? = ns at h
  induction ns generalizing ms with
  | nil => exact h.resolve_left not_mem_nil
  | cons n ns ih =>
    refine ih ?_
    rcases h with h | h
    · rcases mem_cons.mp h with rfl | h
      · exact .inr (AList.lookup_insert ms)
      · exact .inl h
    · exact .inr (lookup_insert_own n h)

theorem lookup_insertPlain_none (h : ms.lookup k = none) (hk : k ∉ s.defines?) :
    (insertPlain σ ms [s]).lookup k = none := by
  cases s with
  | matcher name type args =>
    have hne : k ≠ name := fun heq => hk (heq ▸ rfl)
    exact (AList.lookup_insert_ne hne).trans h
  | all | upstream | tls | route | respond => exact h

theorem collected_items (hnew : ∀ n ∈ gs.filterMap Gen.defines?, ms.lookup n = none)
    (hnodup : (gs.filterMap Gen.defines?).Nodup)
    (hplain : ∀ name type args, Gen.matcher name type args ∈ gs → type ≠ lit "classify" ∧ type ≠ lit "all" ∧ g.compileMatcher type args = some (σ name)) :
    (gs.map Gen.item).foldlM (Collected.item g) (collected ms alls names) =
      some (collected (insertPlain σ ms gs) (alls ++ gs.filterMap Gen.conjunction?)
        (names ++ (gs.filterMap Gen.pool?).map Prod.fst)) := by
  induction gs generalizing ms alls names with
  | nil =>
    simp only [filterMap_nil, map_nil, append_nil]
    rfl
  | cons s gs ih =>
    rw [filterMap_cons_toList] at hnew hnodup
    have hnewS : ∀ n ∈ s.defines?, ms.lookup n = none := fun n hn =>
      hnew n (mem_append_left _ (mem_toList.mpr hn))
    have hnewRest : ∀ n ∈ gs.filterMap Gen.defines?, (insertPlain σ ms [s]).lookup n = none := by
      intro n hn
      refine lookup_insertPlain_none (hnew n (mem_append_right _ hn)) fun hns => ?_
      exact (disjoint_of_nodup_append hnodup) (mem_toList.mpr hns) hn
    rw [map_cons, foldlM_cons, collected_item hnewS fun name type args hs =>
      hplain name type args (hs ▸ mem_cons_self)]
    refine (ih hnewRest (List.Nodup.of_append_right hnodup) fun name type args hs =>
      hplain name type args (mem_cons_of_mem _ hs)).trans ?_
    rw [← insertPlain_append, append_assoc, append_assoc, ← filterMap_append,
      ← map_append, ← filterMap_append]
    rfl

theorem mapM_words {f : Word → Option α} {h : Ref → α} {terms : List Ref}
    (hterms : ∀ r ∈ terms, f (plainArg r.raw).word = some (h r)) :
    (terms.map fun r => (plainArg r.raw).word).mapM f = some (terms.map h) := by
  induction terms with
  | nil => rfl
  | cons r terms ih =>
    obtain ⟨hr, hrest⟩ := forall_mem_cons.mp hterms
    rw [map_cons, mapM_cons, hr, ih hrest]
    rfl

theorem allTerm_raw {r : Ref} (hlookup : ms.lookup r.name = some (σ r.name))
    (hall : (σ r.name).isAll = false) (hphase : (σ r.name).isResponsePhase = false) :
    allTerm ms (plainArg r.raw).word = some (σ r.name, r.negate) := by
  simp [allTerm, parseSecRef_raw, hlookup, hall, hphase]

theorem resolveAllMatchers_generated {plains : List Str} (hms : ∀ n ∈ plains, ms.lookup n = some (σ n))
    (hplains : ∀ n ∈ plains, (σ n).isAll = false ∧ (σ n).isResponsePhase = false)
    (hall : ∀ name terms, Gen.all name terms ∈ gs → terms ≠ [] ∧
      σ name = .all (terms.map fun r => (σ r.name, r.negate)) ∧ ∀ r ∈ terms, r.name ∈ plains) :
    ∃ ms', resolveAllMatchers ms (gs.filterMap Gen.conjunction?) = some ms' ∧
      ∀ k, (ms.lookup k = some (σ k) ∨ ∃ terms, Gen.all k terms ∈ gs) →
        ms'.lookup k = some (σ k) := by
  induction gs generalizing ms with
  | nil => exact ⟨ms, rfl, fun k hk => hk.elim id fun ⟨_, h⟩ => absurd h not_mem_nil⟩
  | cons s gs ih =>
    have hallRest := fun name terms hs => hall name terms (mem_cons_of_mem _ hs)
    by_cases hs : ∃ name terms, s = .all name terms
    · obtain ⟨name, terms, rfl⟩ := hs
      obtain ⟨hne, hσ, hterms⟩ := hall name terms mem_cons_self
      obtain ⟨ms', hresolve, hlookup⟩ :=
        ih (fun n hn => lookup_insert_own name (hms n hn)) hallRest
      refine ⟨ms', ?_, ?_⟩
      · have hmap := mapM_words fun r hr =>
          allTerm_raw (hms _ (hterms r hr)) (hplains _ (hterms r hr)).1 (hplains _ (hterms r hr)).2
        change resolveAllMatchers ms ((name, _) :: gs.filterMap Gen.conjunction?) = some ms'
        rw [resolveAllMatchers, foldlM_cons, hmap]
        have hwords : (terms.map fun r => (plainArg r.raw).word) ≠ [] :=
          fun h => hne (map_eq_nil_iff.mp h)
        simpa [hwords, ← hσ, resolveAllMatchers] using hresolve
      · rintro k (hk | ⟨terms', hk⟩)
        · exact hlookup k (.inl (lookup_insert_own name hk))
        · rcases mem_cons.mp hk with heq | hk
          · obtain ⟨rfl, -⟩ := Gen.all.inj heq
            exact hlookup k (.inl (AList.lookup_insert ms))
          · exact hlookup k (.inr ⟨terms', hk⟩)
    · obtain ⟨ms', hresolve, hlookup⟩ := ih hms hallRest
      have hnone : s.conjunction? = none := by
        cases s <;> first | rfl | exact absurd ⟨_, _, rfl⟩ hs
      refine ⟨ms', by rw [filterMap_cons_none hnone]; exact hresolve, ?_⟩
      rintro k (hk | ⟨terms, hk⟩)
      · exact hlookup k (.inl hk)
      · refine hlookup k (.inr ⟨terms, (mem_cons.mp hk).resolve_left fun heq => ?_⟩)
        exact hs ⟨k, terms, heq.symm⟩

theorem vocabulary_generated (h : Meaning g gs σ) :
    ∃ v, vocabulary g (gs.map Gen.item) = some v ∧
      v.upstreamNames = (gs.filterMap Gen.pool?).map Prod.fst ∧ v.stickyCookie = [] ∧
      ∀ n ∈ gs.filterMap Gen.defines?, v.matchers.lookup n = some (σ n) := by
  have hcollect := @collected_items g σ ∅ gs [] [] (fun n _ => rfl) h.nodup fun name type args hs =>
    ⟨(h.plain hs).1, (h.plain hs).2.1, (h.plain hs).2.2.1⟩
  have hplain : ∀ n ∈ gs.filterMap Gen.plain?, (σ n).isAll = false ∧ (σ n).isResponsePhase = false := by
    intro n hn
    obtain ⟨type, args, hs⟩ := mem_plain hn
    exact ⟨(h.plain hs).2.2.2.1, (h.plain hs).2.2.2.2.1⟩
  obtain ⟨ms, hresolve, hlookup⟩ := resolveAllMatchers_generated
    (fun n hn => lookup_insertPlain (.inl hn)) hplain fun name terms hs => h.all hs
  refine ⟨⟨ms, ∅, ∅, [], none, (gs.filterMap Gen.pool?).map Prod.fst, []⟩, ?_, rfl, rfl, ?_⟩
  · refine bind_eq_some_iff.mpr ⟨_, hcollect, ?_⟩
    exact bind_eq_some_iff.mpr ⟨ms, hresolve, rfl⟩
  · refine fun n hn => hlookup n ((mem_defines hn).imp_left ?_)
    rintro ⟨type, args, hs⟩
    exact lookup_insertPlain (.inl (mem_filterMap.mpr ⟨_, hs, rfl⟩))

end Vocabulary

/-! ## The rules -/

section Rules

variable {g : Grammar} {σ : Str → Matcher} {v : Vocabulary}

def respondRule (σ : Str → Matcher) (r : List Ref × Status) : RespondWhen × Synthetic :=
  (.terms (r.1.map fun t => (σ t.name, t.negate)), ⟨r.2.code, []⟩)

def routeRule (σ : Str → Matcher) (r : Option Str × Str) : Scope × Str :=
  (r.1.map fun n => [σ n], r.2)

def planOf (σ : Str → Matcher) (gs : List Gen) : Plan where
  key.respondRules := (gs.filterMap Gen.respond?).map (respondRule σ)
  key.routeRules := (gs.filterMap Gen.route?).map (routeRule σ)

/-- The vocabulary knows a matcher, and no rule of a request is wrong for it. -/
def Knows (v : Vocabulary) (σ : Str → Matcher) (n : Str) : Prop :=
  n ≠ [] ∧ v.matchers.lookup n = some (σ n) ∧ (σ n).isResponsePhase = false

theorem compileRespond_generated {terms : List Ref} (hne : terms ≠ [])
    (h : ∀ r ∈ terms, Knows v σ r.name) (status : Status) :
    compileRespond v.matchers ((terms.map (fun r => (plainArg r.raw).word)) ++
      [(plainArg status.text).word]) = some (respondRule σ (terms, status)) := by
  have hterm : ∀ r ∈ terms, secTerm v.matchers (plainArg r.raw).word = some (σ r.name, r.negate) := by
    intro r hr
    obtain ⟨-, hlookup, hphase⟩ := h r hr
    simp [secTerm, parseSecRef_raw, hlookup, hphase]
  have hrefs : ∀ w ∈ terms.map (fun r => (plainArg r.raw).word), isSecRefArg w = true :=
    List.forall_mem_map.mpr fun r hr => isSecRefArg_raw (h r hr).1 r.negate
  have hstatus : isSecRefArg (plainArg status.text).word = false ∧
      atoi (plainArg status.text).word.raw = some status.code := by
    cases status <;> decide
  have hscoped : compileScopedRespond v.matchers ((terms.map (fun r => (plainArg r.raw).word)) ++
      [(plainArg status.text).word]) = some (respondRule σ (terms, status)) := by
    rw [compileScopedRespond, takeWhile_append_of_pos hrefs, dropWhile_append_of_pos hrefs,
      takeWhile_cons_of_neg (by rw [hstatus.1]; exact Bool.false_ne_true),
      dropWhile_cons_of_neg (by rw [hstatus.1]; exact Bool.false_ne_true), append_nil,
      mapM_words hterm]
    simp [hstatus.2, respondRule, firstRaw]
  cases terms with
  | nil => exact absurd rfl hne
  | cons r terms =>
    have hfirst := hrefs _ mem_cons_self
    cases terms with
    | nil =>
      change compileRespond v.matchers [_, _] = _
      rw [compileRespond, if_pos hfirst]
      exact hscoped
    | cons r' terms =>
      change compileRespond v.matchers (_ :: _ :: _) = _
      rw [compileRespond, if_pos hfirst]
      exact hscoped

theorem compileRoute_generated {scope : Option Str} {up : Str} (hup : up ∈ v.upstreamNames)
    (h : ∀ n ∈ scope, Knows v σ n) :
    compileRoute g.toPatternGrammar v (scope.toList.map (fun n => (plainArg (lit "@" ++ n)).word) ++
      [(plainArg (lit "->")).word, (plainArg up).word]) = some (routeRule σ (scope, up)) := by
  cases scope with
  | none =>
    have hcut : cutArrow [(plainArg (lit "->")).word, (plainArg up).word] =
        ([], [(plainArg (lit "->")).word, (plainArg up).word]) := rfl
    change compileRoute g.toPatternGrammar v [_, _] = _
    rw [compileRoute, hcut]
    simp [Arg.word, plainArg, hup, parseScopeAll, ensureNotResponsePhase, routeRule]
  | some n =>
    obtain ⟨hn, hlookup, hphase⟩ := h n rfl
    have hcut : cutArrow [⟨lit "@" ++ n, true⟩, (plainArg (lit "->")).word, (plainArg up).word] =
        ([⟨lit "@" ++ n, true⟩], [(plainArg (lit "->")).word, (plainArg up).word]) := rfl
    have hresolve : resolveRef v.matchers ⟨lit "@" ++ n, true⟩ = some (σ n) := hlookup
    have hscope : parseScopeAll g.toPatternGrammar v.matchers [⟨lit "@" ++ n, true⟩] =
        some (some [σ n]) := by
      rw [parseScopeAll, mapM_cons, hresolve]
      rfl
    change compileRoute g.toPatternGrammar v [(plainArg (lit "@" ++ n)).word, _, _] = _
    rw [word_reference hn, compileRoute, hcut]
    simp [hscope, Arg.word, plainArg, hup, ensureNotResponsePhase, hphase, routeRule]

def Fits (v : Vocabulary) (σ : Str → Matcher) : Gen → Prop
  | .route scope up => up ∈ v.upstreamNames ∧ ∀ n ∈ scope, Knows v σ n
  | .respond terms _ => terms ≠ [] ∧ ∀ r ∈ terms, Knows v σ r.name
  | _ => True

theorem planOf_append (gs : List Gen) (s : Gen) : planOf σ (gs ++ [s]) =
    ⟨{ respondRules := (planOf σ gs).key.respondRules ++ s.respond?.toList.map (respondRule σ)
       routeRules := (planOf σ gs).key.routeRules ++ s.route?.toList.map (routeRule σ) }, {}⟩ := by
  simp only [planOf, filterMap_append, map_append, filterMap_cons_toList, filterMap_nil, append_nil]

theorem planOf_item {addresses : List Str} (gs : List Gen) {s : Gen} (h : Fits v σ s) :
    (planOf σ gs).item g v addresses s.item = some (planOf σ (gs ++ [s])) := by
  rw [planOf_append]
  have hsame : (⟨{ respondRules := (planOf σ gs).key.respondRules ++ []
                   routeRules := (planOf σ gs).key.routeRules ++ [] }, {}⟩ : Plan) = planOf σ gs := by
    rw [append_nil, append_nil]
    rfl
  cases s with
  | matcher name type args | all name terms | tls words | upstream name targets =>
    exact congrArg some hsame.symm
  | route scope up =>
    obtain ⟨hup, hscope⟩ := h
    have hroute := @compileRoute_generated g σ v scope up hup hscope
    have hwords : (scope.toList.map (fun n => plainArg (lit "@" ++ n)) ++
        [plainArg (lit "->"), plainArg up]).map Arg.word =
        scope.toList.map (fun n => (plainArg (lit "@" ++ n)).word) ++
          [(plainArg (lit "->")).word, (plainArg up).word] := by
      rw [map_append, List.map_map]
      rfl
    refine bind_eq_some_iff.mpr
      ⟨{ respondRules := (planOf σ gs).key.respondRules ++ []
         routeRules := (planOf σ gs).key.routeRules ++ [routeRule σ (scope, up)] }, ?_, rfl⟩
    rw [KeyPlan.directive, hwords, hroute, append_nil]
    rfl
  | respond terms status =>
    obtain ⟨hne, hterms⟩ := h
    have hrespond := compileRespond_generated hne hterms status
    have hwords : (terms.map (fun r => plainArg r.raw) ++ [plainArg status.text]).map Arg.word =
        terms.map (fun r => (plainArg r.raw).word) ++ [(plainArg status.text).word] := by
      rw [map_append, List.map_map]
      rfl
    have honError : Stmt.isOnError ⟨lit "respond", terms.map (fun r => (plainArg r.raw).word) ++
        [(plainArg status.text).word], none⟩ = false := by
      cases terms with
      | nil => exact absurd rfl hne
      | cons r terms =>
        obtain ⟨n, negate⟩ := r
        cases negate <;> rfl
    refine bind_eq_some_iff.mpr
      ⟨{ respondRules := (planOf σ gs).key.respondRules ++ [respondRule σ (terms, status)]
         routeRules := (planOf σ gs).key.routeRules ++ [] }, ?_, ?_⟩
    · change KeyPlan.directive g v addresses _ ⟨lit "respond", _, none⟩ = _
      rw [KeyPlan.directive, hwords, honError, hrespond, append_nil]
      rfl
    · change (RestPlan.directive g v _ ⟨lit "respond", _, none⟩).bind _ = _
      rw [RestPlan.directive, hwords, honError]
      rfl

theorem planOf_items {addresses : List Str} {gs : List Gen} (h : ∀ s ∈ gs, Fits v σ s) (done : List Gen) :
    (gs.map Gen.item).foldlM (Plan.item g v addresses) (planOf σ done) =
      some (planOf σ (done ++ gs)) := by
  induction gs generalizing done with
  | nil => rw [append_nil]; rfl
  | cons s gs ih =>
    obtain ⟨hs, hgs⟩ := forall_mem_cons.mp h
    rw [map_cons, foldlM_cons, planOf_item done hs]
    refine (ih hgs (done ++ [s])).trans ?_
    rw [append_assoc, singleton_append]

end Rules

/-! ## Origins -/

theorem addOrigin_items {gs : List Gen} {origins : List (Str × List Str)}
    (h : ((origins ++ gs.filterMap Gen.pool?).map Prod.fst).Nodup) :
    (gs.map Gen.item).foldlM addOrigin origins = some (origins ++ gs.filterMap Gen.pool?) := by
  induction gs generalizing origins with
  | nil => rw [filterMap_nil, append_nil]; rfl
  | cons s gs ih =>
    rw [map_cons, foldlM_cons]
    cases s with
    | upstream name targets =>
      have hassoc : origins ++ (Gen.upstream name targets :: gs).filterMap Gen.pool? =
          (origins ++ [(name, targets)]) ++ gs.filterMap Gen.pool? := by
        rw [filterMap_cons_toList, ← append_assoc]
        rfl
      rw [hassoc] at h ⊢
      have hnew : origins.lookup name = none := by
        rw [lookup_eq_none_iff]
        intro p hp
        rw [bne_iff_ne]
        rintro rfl
        rw [append_assoc, map_append] at h
        exact disjoint_of_nodup_append h (List.mem_map_of_mem hp) mem_cons_self
      have htargets : targetsOf ⟨lit "upstream", [(plainArg name).word],
          some [⟨lit "to", (targets.map plainArg).map Arg.word⟩]⟩ = targets := by
        change rawArgs ((targets.map plainArg).map Arg.word) ++ [] = targets
        rw [rawArgs_args fun _ => rfl, append_nil]
      have hadd : addOrigin origins (Gen.upstream name targets).item =
          some (origins ++ [(name, targets)]) := by
        change (if ((origins.lookup name).isSome) = true then none else
          some (origins ++ [(name, targetsOf _)])) = _
        rw [hnew]
        exact congrArg (fun ts => some (origins ++ [(name, ts)])) htargets
      rw [hadd]
      exact ih h
    | matcher | all | tls | route | respond => exact ih h

/-! ## Answers -/

section Answers

variable (μ : Str → Request → Bool)

def Ref.holds (req : Request) (r : Ref) : Bool := μ r.name req != r.negate

def verdict (gs : List Gen) (req : Request) : Option Outcome :=
  match (gs.filterMap Gen.respond?).find? fun r => r.1.all (Ref.holds μ req) with
  | some r => some (.status r.2.code)
  | none =>
    let route := (gs.filterMap Gen.route?).find? fun r => r.1.all fun n => μ n req
    let pools := gs.filterMap Gen.pool?
    ((route.bind fun r => pools.lookup r.2).or (pools.head?.map Prod.snd)).map .pool

end Answers

section

variable {g : Grammar} {gs : List Gen} {σ : Str → Matcher}

def accepts (σ : Str → Matcher) (n : Str) (req : Request) : Bool := (σ n).matches ⟨req, [], none⟩

theorem respondTermsMatch_refs {terms : List Ref} (h : ∀ r ∈ terms, RequestOnly (σ r.name))
    (c : MatchContext) :
    respondTermsMatch c (terms.map fun r => (σ r.name, r.negate)) =
      terms.all (Ref.holds (accepts σ) c.req) := by
  induction terms with
  | nil => rfl
  | cons r terms ih =>
    obtain ⟨hr, hrest⟩ := forall_mem_cons.mp h
    rw [map_cons, respondTermsMatch, ih hrest, hr c, all_cons, Ref.holds, accepts]
    cases (σ r.name).matches ⟨c.req, [], none⟩ <;> cases r.negate <;> rfl

theorem Meaning.requestOnly (h : Meaning g.toPatternGrammar gs σ) {n : Str}
    (hn : n ∈ gs.filterMap Gen.defines?) : RequestOnly (σ n) ∧ (σ n).isResponsePhase = false := by
  rcases mem_defines hn with ⟨type, args, hs⟩ | ⟨terms, hs⟩
  · obtain ⟨-, -, -, -, hphase, honly⟩ := h.plain hs
    exact ⟨honly, hphase⟩
  obtain ⟨-, hσ, hterms⟩ := h.all hs
  have honly : ∀ r ∈ terms, RequestOnly (σ r.name) := by
    intro r hr
    obtain ⟨type, args, hplain⟩ := mem_plain (hterms r hr)
    exact (h.plain hplain).2.2.2.2.2
  rw [hσ]
  refine ⟨fun c => ?_, rfl⟩
  rw [Matcher.matches, Matcher.matches, respondTermsMatch_refs honly, respondTermsMatch_refs honly]

def firstRoute (σ : Str → Matcher) (gs : List Gen) (req : Request) : Option (Option Str × Str) :=
  (gs.filterMap Gen.route?).find? fun r => r.1.all fun n => accepts σ n req

def firstRespond (σ : Str → Matcher) (gs : List Gen) (req : Request) : Option (List Ref × Status) :=
  (gs.filterMap Gen.respond?).find? fun r => r.1.all (Ref.holds (accepts σ) req)

theorem answer_generated (h : Meaning g.toPatternGrammar gs σ) (hsafe : ∀ s ∈ gs, s.Safe)
    (v : Vocabulary) (req : Request) :
    LoadedSite.answer ⟨⟨v, planOf σ gs⟩, gs.filterMap Gen.pool?⟩ req = verdict (accepts σ) gs req := by
  let p := Compiled.pipeline ⟨v, planOf σ gs⟩
  have hroute : p.resolveUpstream req = ((firstRoute σ gs req).map Prod.snd).getD [] := by
    have hfind : p.routeRules.find? (fun r => MatchContext.scopeMatches ⟨req, [], none⟩ r.1) =
        (firstRoute σ gs req).map (routeRule σ) := by
      change ((gs.filterMap Gen.route?).map (routeRule σ)).find? _ = _
      rw [find?_map, firstRoute]
      congr 2
      funext r
      obtain ⟨scope, up⟩ := r
      cases scope with
      | none => rfl
      | some n => exact Bool.or_false _
    rw [Pipeline.resolveUpstream, hfind]
    cases firstRoute σ gs req with
    | none | some r => rfl
  have hrespond : p.respondRules.find? (fun r => Pipeline.respondMatches (p.context req none) r.1) =
      (firstRespond σ gs req).map (respondRule σ) := by
    change ((gs.filterMap Gen.respond?).map (respondRule σ)).find? _ = _
    rw [find?_map, firstRespond]
    congr 1
    refine find?_congr fun r hr => ?_
    exact respondTermsMatch_refs (fun t ht => (h.requestOnly ((h.respond (mem_respond hr)).2 t ht)).1) _
  have heval : LoadedSite.answer ⟨⟨v, planOf σ gs⟩, gs.filterMap Gen.pool?⟩ req =
      (p.respondRules.find? fun r => Pipeline.respondMatches (p.context req none) r.1).elim
        ((LoadedSite.originFor ⟨⟨v, planOf σ gs⟩, gs.filterMap Gen.pool?⟩
          (p.resolveUpstream req)).map .pool) fun r => some (.status r.2.status) := by
    change (match (p.evalRequest req).synthetic, (p.evalRequest req).redirect with
      | some r, _ => some (Outcome.status r.status)
      | none, some _ => none
      | none, none => (LoadedSite.originFor ⟨⟨v, planOf σ gs⟩, gs.filterMap Gen.pool?⟩
          (p.evalRequest req).upstream).map .pool) = _
    rw [Pipeline.evalRequest]
    cases p.respondRules.find? (fun r => Pipeline.respondMatches (p.context req none) r.1) with
    | some r | none => rfl
  rw [heval, hrespond, hroute, verdict, ← firstRespond, ← firstRoute]
  cases firstRespond σ gs req with
  | some r => rfl
  | none =>
    cases hfind : firstRoute σ gs req with
    | none => rfl
    | some r =>
      have hne : r.2 ≠ [] := (hsafe _ (mem_route (mem_of_find?_eq_some hfind))).2.1
      change (LoadedSite.originFor _ r.2).map Outcome.pool = _
      rw [LoadedSite.originFor, if_neg hne]
      rfl

theorem loadSite_generated {host : Str} (hhost : PlainAddress host)
    (h : Meaning g.toPatternGrammar gs σ) (hsafe : ∀ s ∈ gs, s.Safe)
    (hpools : ((gs.filterMap Gen.pool?).map Prod.fst).Nodup) (hsome : gs.filterMap Gen.pool? ≠ [])
    (lookup : Environment) :
    ∃ s, loadSite g lookup (generatedSite host gs) = some s ∧
      ∀ req, s.answer req = verdict (accepts σ) gs req := by
  obtain ⟨v, hv, hnames, -, hlookup⟩ := vocabulary_generated h
  have hparse : parse (generatedSite host gs) =
      some ⟨none, [⟨[host], (gs.map Gen.row).map Row.node⟩], []⟩ :=
    parse_writtenSite (List.forall_mem_map.mpr fun s hs => (hsafe s hs).row.1) hhost
  have henv := substituteNodes_rows
    (List.forall_mem_map.mpr fun s hs => (hsafe s hs).row.2) lookup
  have hfits : ∀ s ∈ gs, Fits v σ s := by
    have hknows : ∀ n ∈ gs.filterMap Gen.defines?, n ≠ [] → Knows v σ n := fun n hn hne =>
      ⟨hne, hlookup n hn, (h.requestOnly hn).2⟩
    intro s hs
    cases s with
    | route scope up =>
      obtain ⟨hup, hscope⟩ := h.route hs
      exact ⟨hnames ▸ hup, fun n hn => hknows n (hscope n hn) ((hsafe _ hs).1 n hn).1⟩
    | respond terms status =>
      obtain ⟨hne, hterms⟩ := h.respond hs
      exact ⟨hne, fun r hr => hknows _ (hterms r hr) ((hsafe _ hs) r hr).1⟩
    | matcher | all | upstream | tls => trivial
  have hitems : Site.items ⟨[host], (gs.map Gen.row).map Row.node⟩ = gs.map Gen.item := by
    rw [Site.items, List.map_map, List.map_map]
    rfl
  refine ⟨⟨⟨v, planOf σ gs⟩, gs.filterMap Gen.pool?⟩, ?_, answer_generated h hsafe v⟩
  have hplan := @planOf_items g σ v [host] gs hfits []
  have hcompile : compile g [host] (gs.map Gen.item) = some ⟨v, planOf σ gs⟩ :=
    bind_eq_some_iff.mpr ⟨v, hv, bind_eq_some_iff.mpr ⟨planOf σ gs, hplan, rfl⟩⟩
  have horigins := @addOrigin_items gs [] hpools
  rw [loadSite, hparse]
  simp only [substituteEnv, henv, bind_eq_bind, bind_some, map_cons, map_nil,
    hitems, hcompile, horigins]
  simp [hsome]

end

end Controller

end Cadish
