import Cadish.Cadishfile.Joined
import Cadish.Controller.Ingress

/-!
# Policy fragments

A policy fragment is checked between the braces of a site of its own, and used at the end of a
longer text. It stays within its site because whole lines are read without a look at what follows.
The guard against the environment reads the fragment as it is written, and the substitution reads
the arguments as they are lexed: in between a quoted text loses its escapes.
-/

namespace Cadish

open Cadishfile List Option
open Str (byte)

/-! ## The words of statements -/

namespace Cadishfile

def Lexeme.text? : Lexeme → Option Str
  | .word text _ => some text
  | _ => none

def texts (xs : List Lexeme) : List Str := xs.filterMap Lexeme.text?

mutual

def Node.words : Node → List Str
  | .matcherDef name type args => (lit "@" ++ name) :: type :: args.map (·.raw)
  | .directive name args none => name :: args.map (·.raw)
  | .directive name args (some block) => name :: (args.map (·.raw) ++ wordsOf block)

def wordsOf : List Node → List Str
  | [] => []
  | n :: body => n.words ++ wordsOf body

end

theorem texts_append (xs ys : List Lexeme) : texts (xs ++ ys) = texts xs ++ texts ys :=
  filterMap_append ..

theorem texts_args (args : List Arg) : texts (args.map Arg.lexeme) = args.map (·.raw) := by
  induction args with
  | nil => rfl
  | cons a args ih => exact congrArg (a.raw :: ·) ih

theorem texts_skipSeparators (xs : List Lexeme) : texts (skipSeparators xs) = texts xs := by
  fun_induction skipSeparators xs with
  | case1 xs ih | case2 xs ih | case3 _ xs ih => exact ih
  | case4 xs => rfl

theorem PlainWords.texts {q : List Lexeme} {n : Node} (h : PlainWords q n) :
    texts q = n.words := by
  cases h with
  | @matcherDef text type quoted quoted' args hdef hok =>
    have htext : lit "@" ++ text.drop 1 = text :=
      (hasPrefix_at (Bool.and_eq_true_iff.mp hdef).2).symm
    rw [Node.words, htext, ← texts_args]
    rfl
  | @directive name quoted args hdef => exact congrArg (name :: ·) (texts_args args)

theorem StatementEnd.texts {e ys : List Lexeme} (h : StatementEnd e ys) : texts e = [] := by
  cases h with
  | @separator x ys h =>
    cases x with
    | newline | semicolon | comment => rfl
    | word | openBrace | closeBrace | eof => cases h
  | closing => rfl

variable {xs : List Lexeme}

theorem OpensBlock.texts {ys : List Lexeme} {name : Str} {args : List Arg}
    (h : OpensBlock xs name args ys) :
    texts xs = name :: (args.map (·.raw) ++ texts ys) := by
  obtain ⟨quoted, -, rfl⟩ := opensBlock_iff.mp h
  have hwords := texts_append (args.map Arg.lexeme) (.openBrace :: ys)
  rw [texts_args] at hwords
  exact congrArg (name :: ·) hwords

theorem Block.texts {depth : Nat} {rest : List Lexeme} {body : List Node} (h : Block depth xs body rest) :
    texts xs = wordsOf body ++ texts rest := by
  induction h with
  | @close depth xs rest _ h =>
    rw [← texts_skipSeparators, h]
    rfl
  | @plain depth xs ys rest n body _ h _ ih =>
    obtain ⟨q, e, hq, he, heq⟩ := plainStatement_iff.mp h
    rw [← texts_skipSeparators, heq, texts_append, texts_append, hq.texts, he.texts, ih, wordsOf,
      nil_append, append_assoc]
  | @nested depth xs ys zs us rest name args inner body _ h _ hend _ ihb ih =>
    obtain ⟨e, rfl, he⟩ := expectStatementEnd_iff.mp hend
    rw [← texts_skipSeparators, h.texts, ihb, texts_append, he.texts, ih, wordsOf, Node.words]
    simp

/-- A statement of the body, or of a block in it. -/
inductive Occurs (n : Node) : List Node → Prop
  | here {body : List Node} (h : n ∈ body) : Occurs n body
  | inside {name : Str} {args : List Arg} {block body : List Node}
    (h : .directive name args (some block) ∈ body) (hblock : Occurs n block) : Occurs n body

theorem Top.closes_last {us p zs : List Lexeme}
    (heq : us ++ [.closeBrace, .newline, .eof] = p ++ .closeBrace :: zs) (hzs : Top zs [] [])
    (heof : .eof ∉ us) : p = us ∧ zs = [.newline, .eof] := by
  rcases append_eq_append_iff.mp heq with ⟨a, rfl, ha⟩ | ⟨c, rfl, hc⟩
  · cases a with
    | nil => exact ⟨append_nil us, (cons.inj ha).2.symm⟩
    | cons x a =>
      have hmem : Lexeme.closeBrace ∈ [Lexeme.newline, .eof] := by
        rw [(cons.inj ha).2]
        exact mem_append_right a mem_cons_self
      simp at hmem
  · cases c with
    | nil => exact ⟨(append_nil p).symm, (cons.inj hc).2⟩
    | cons x c =>
      -- there would be a closing brace among the separators behind the site
      obtain ⟨rfl, rfl⟩ := cons.inj hc
      have hlast : Top ((c ++ [.closeBrace, .newline]) ++ [.eof]) [] [] := by simpa using hzs
      have hnot : .eof ∉ c ++ [.closeBrace, .newline] := by
        simpa using fun hmem => heof (mem_append_right p (mem_cons_of_mem _ hmem))
      cases hlast.rest_separators hnot .closeBrace (by simp)

theorem lexFrom_closing (start : Bool) : lexFrom start (lit "\x7d\n") = some [.closeBrace, .newline, .eof] := by
  cases start <;> rfl

end Cadishfile

namespace Ingress

open Controller

variable {s fragment : Str}

/-! ## The lines of a fragment -/

def tabbed : Str → Str
  | [] => lit "\n"
  | b :: s => if b = byte '\n' then b :: byte '\t' :: tabbed s else b :: tabbed s

theorem flatMap_split (s : Str) :
    (Str.split (byte '\n') s).flatMap (fun ln => lit "\t" ++ ln ++ lit "\n") =
      byte '\t' :: tabbed s := by
  induction s with
  | nil => rfl
  | cons b s ih =>
    rw [tabbed, Str.split, splitOn, splitOnP_cons_eq_if_modifyHead]
    rw [Str.split, splitOn] at ih
    by_cases hb : b = byte '\n'
    · rw [if_pos (beq_iff_eq.mpr hb), flatMap_cons, ih, hb]
      rfl
    · rw [if_neg (beq_iff_eq.not.mpr hb), if_neg hb]
      obtain ⟨ln, lns, hsplit⟩ := exists_cons_of_ne_nil (splitOnP_ne_nil (· == byte '\n') s)
      rw [hsplit] at ih ⊢
      exact congrArg (fun t => byte '\t' :: b :: t) (cons.inj ih).2

theorem fragmentLines_eq (fragment : Str) :
    fragmentLines fragment = byte '\t' :: tabbed (trimNewlines fragment) :=
  flatMap_split _

theorem lines_tabbed (s : Str) : (tabbed s).getLast? = some (byte '\n') := by
  induction s with
  | nil => rfl
  | cons b s ih =>
    have hne : tabbed s ≠ [] := by
      intro hnil
      rw [hnil] at ih
      cases ih
    rw [tabbed]
    split
    · exact (getLast?_append_of_ne_nil [b, byte '\t'] hne).trans ih
    · exact (getLast?_append_of_ne_nil [b] hne).trans ih

theorem containsEnvPlaceholder_tabbed (h : containsEnvPlaceholder s = false) :
    containsEnvPlaceholder (tabbed s) = false := by
  induction s using containsEnvPlaceholder.induct with
  | case1 c s ih =>
    rw [tabbed, if_neg (by decide), tabbed]
    split
    · rw [containsEnvPlaceholder_escape, containsEnvPlaceholder_cons (by decide) (by decide)]
      exact ih h
    · exact ih h
  | case2 b c s hescape hopen =>
    rw [containsEnvPlaceholder, if_neg hescape, if_pos hopen] at h
    cases h
  | case3 b c s hescape hopen ih =>
    rw [containsEnvPlaceholder, if_neg hescape, if_neg hopen] at h
    have hrest := ih h
    rw [tabbed]
    split
    next hline =>
      subst hline
      rw [containsEnvPlaceholder_cons (by decide) (by decide), containsEnvPlaceholder_cons (by decide) (by decide)]
      exact hrest
    next hline =>
      -- a byte is followed by the one that follows it in the fragment
      rw [tabbed] at hrest ⊢
      split at hrest
      next hc =>
        rw [if_pos hc, containsEnvPlaceholder, if_neg hescape,
          if_neg (by rintro ⟨-, hdollar⟩; exact absurd (hc.symm.trans hdollar) (by decide))]
        exact hrest
      next hc =>
        rw [if_neg hc, containsEnvPlaceholder, if_neg hescape, if_neg hopen]
        exact hrest
  | case4 s hshort =>
    cases s with
    | nil => rfl
    | cons b s =>
      cases s with
      | nil =>
        by_cases hline : b = byte '\n'
        · subst hline
          rfl
        · rw [tabbed, if_neg hline]
          change containsEnvPlaceholder [b, byte '\n'] = false
          simp +decide [containsEnvPlaceholder]
      | cons c s => exact absurd rfl (hshort b c s)

theorem containsEnvPlaceholder_fragmentLines (h : containsEnvPlaceholder fragment = false) :
    containsEnvPlaceholder (fragmentLines fragment) = false := by
  have hsplit : ∃ rest, fragment = trimNewlines fragment ++ rest := by
    refine ⟨(fragment.reverse.takeWhile (· == byte '\n')).reverse, ?_⟩
    rw [trimNewlines, ← reverse_append, takeWhile_append_dropWhile, reverse_reverse]
  obtain ⟨rest, hrest⟩ := hsplit
  rw [hrest] at h
  rw [fragmentLines_eq, containsEnvPlaceholder_cons (by decide) (by decide)]
  exact containsEnvPlaceholder_tabbed (containsEnvPlaceholder_parts h).1

theorem lines_fragmentLines (fragment : Str) : Lines (fragmentLines fragment) := by
  right
  rw [fragmentLines_eq]
  have hlast := lines_tabbed (trimNewlines fragment)
  obtain ⟨q, hq⟩ := getLast?_eq_some_iff.mp hlast
  rw [hq]
  exact getLast?_eq_some_iff.mpr ⟨_ :: q, rfl⟩

/-! ## The lines in front of a fragment -/

/-- Whole lines, the last of which is not continued. -/
def Finished (s : Str) : Prop :=
  s = [] ∨ ∃ q c, s = q ++ [c, byte '\n'] ∧ c ≠ byte '\\' ∧ c ≠ byte '\r'

theorem Finished.append_left (h : Finished s) (hne : s ≠ []) (p : Str) : Finished (p ++ s) := by
  obtain ⟨q, c, rfl, hc⟩ := h.resolve_left hne
  exact .inr ⟨p ++ q, c, (append_assoc ..).symm, hc⟩

theorem Finished.append {t : Str} (hs : Finished s) (ht : Finished t) : Finished (s ++ t) := by
  by_cases hne : t = []
  · rwa [hne, append_nil]
  · exact ht.append_left hne s

theorem finished_flatMap {α : Type} {f : α → Str} {l : List α} (h : ∀ a ∈ l, Finished (f a)) :
    Finished (l.flatMap f) := by
  induction l with
  | nil => exact .inl rfl
  | cons a l ih =>
    obtain ⟨ha, hl⟩ := forall_mem_cons.mp h
    exact ha.append (ih hl)

theorem Finished.lines (h : Finished s) : Lines s := by
  rcases h with rfl | ⟨q, c, rfl, -⟩
  · exact .inl rfl
  · exact .inr (getLast?_eq_some_iff.mpr ⟨q ++ [c], by simp⟩)

theorem Finished.not_continued (h : Finished s) : ¬ Continued s := by
  rintro ⟨p, hp⟩
  rcases h with rfl | ⟨q, c, rfl, hescape, hcr⟩
  · rcases hp with hp | hp
    · exact absurd (append_eq_nil_iff.mp hp.symm).2 (by decide)
    · exact absurd (append_eq_nil_iff.mp hp.symm).2 (by decide)
  rcases hp with hp | hp
  · exact hescape (cons.inj (append_inj' hp rfl).2).1
  · have hcons : q ++ [c, byte '\n'] = (p ++ lit "\\") ++ lit "\r\n" :=
      hp.trans (append_assoc p (lit "\\") (lit "\r\n")).symm
    exact hcr (cons.inj (append_inj' hcons rfl).2).1

theorem getLast?_join {ws : List Str} {w : Str} {c : UInt8} (hw : ws.getLast? = some w)
    (hc : w.getLast? = some c) : (Str.join (lit " ") ws).getLast? = some c := by
  induction ws with
  | nil => cases hw
  | cons x ws ih =>
    cases ws with
    | nil =>
      cases hw
      simpa [Str.join] using hc
    | cons y ws =>
      have hrest := ih hw
      have hjoin : Str.join (lit " ") (x :: y :: ws) = x ++ lit " " ++ Str.join (lit " ") (y :: ws) := by
        simp [Str.join]
      rw [hjoin, getLast?_append_of_ne_nil, hrest]
      intro hnil
      rw [hnil] at hrest
      cases hrest

def rowText (g : Gen) : Str := lit "\t" ++ Str.join (lit " ") g.row.words ++ lit "\n"

theorem rowText_ne_nil (g : Gen) : rowText g ≠ [] := cons_ne_nil _ _

theorem finished_rowText {g : Gen} {w : Str} {c : UInt8} (hw : g.row.words.getLast? = some w)
    (hc : w.getLast? = some c) (hescape : c ≠ byte '\\') (hcr : c ≠ byte '\r') :
    Finished (rowText g) := by
  obtain ⟨q, hq⟩ := getLast?_eq_some_iff.mp (getLast?_join hw hc)
  refine .inr ⟨lit "\t" ++ q, c, ?_, hescape, hcr⟩
  rw [rowText, hq, append_assoc, append_assoc]
  rfl

theorem mem_upstreamName {t : Target} {b : UInt8} (h : b ∈ upstreamName t) :
    b ≠ byte '\\' ∧ b ≠ byte '\r' := by
  have hname : ∀ s, b ∈ sanitize s → b ≠ byte '\\' ∧ b ≠ byte '\r' := by
    intro s hs
    obtain ⟨c, -, rfl⟩ := List.mem_map.mp hs
    split
    next hc =>
      constructor
      · rintro rfl
        exact absurd hc (by decide)
      · rintro rfl
        exact absurd hc (by decide)
    next => decide
  have hlit : ∀ b ∈ lit "u_", b ≠ byte '\\' ∧ b ≠ byte '\r' := by decide
  have hsep : ∀ b ∈ lit "_", b ≠ byte '\\' ∧ b ≠ byte '\r' := by decide
  simp only [upstreamName, mem_append] at h
  rcases h with ((((h | h) | h) | h) | h) | h
  · exact hlit b h
  · exact hname _ h
  · exact hsep b h
  · exact hname _ h
  · exact hsep b h
  · exact hname _ h

theorem finished_route (scope : Option Str) (t : Target) : Finished (rowText (.route scope (upstreamName t))) := by
  have hwords : (Gen.route scope (upstreamName t)).row.words.getLast? = some (upstreamName t) := by
    cases scope <;> rfl
  have hne : upstreamName t ≠ [] := cons_ne_nil _ _
  have hlast := getLast?_eq_some_getLast hne
  obtain ⟨hescape, hcr⟩ := mem_upstreamName (getLast_mem hne)
  exact finished_rowText hwords hlast hescape hcr

theorem finished_upstream (name : Str) (targets : List Str) : Finished (rowText (.upstream name targets)) := by
  have hwords : (Gen.upstream name targets).row.words.getLast? = some (lit "\x7d") := by
    refine getLast?_eq_some_iff.mpr
      ⟨lit "upstream" :: name :: lit "\x7b" :: lit "to" :: (targets.map plainArg).map Arg.text, rfl⟩
  exact finished_rowText hwords rfl (by decide) (by decide)

theorem finished_respond (terms : List Ref) : Finished (rowText (.respond terms .notFound)) := by
  have hwords : (Gen.respond terms .notFound).row.words.getLast? = some (lit "404") := by
    refine getLast?_eq_some_iff.mpr ⟨lit "respond" :: (terms.map fun r => plainArg r.raw).map Arg.text, ?_⟩
    simp only [Gen.row, Row.words, map_append]
    rfl
  exact finished_rowText hwords rfl (by decide) (by decide)

variable (host : Str) (routes : List Route) (default : Option Target) (acme : Bool)
  (acmeEmail : Str)

theorem finished_siteStatements :
    Finished ((siteStatements routes default acme acmeEmail).flatMap rowText) := by
  simp only [siteStatements, flatMap_append]
  refine .append (.append (.append (.append ?_ ?_) ?_) ?_) ?_
  · generalize foldl addUp [] _ = ups
    have hups : Finished (((ups.insertionSort fun a b => a.1 ≤ b.1).map fun u =>
        Gen.upstream u.1 [u.2]).flatMap rowText) := by
      rw [flatMap_map]
      exact finished_flatMap fun u _ => finished_upstream u.1 [u.2]
    split
    next hsome =>
      refine hups.append_left (fun hnil => ?_) _
      obtain ⟨u, hu⟩ := exists_mem_of_ne_nil ups hsome.2
      have hrow := List.mem_map_of_mem (f := fun u : Str × Str => Gen.upstream u.1 [u.2])
        ((mem_insertionSort fun a b : Str × Str => a.1 ≤ b.1).mpr hu)
      exact rowText_ne_nil _ (flatMap_eq_nil_iff.mp hnil _ hrow)
    next => exact hups
  · rw [flatMap_assoc]
    refine finished_flatMap fun r _ => ?_
    rw [flatMap_cons, flatMap_singleton]
    exact (finished_route _ _).append_left (rowText_ne_nil _) _
  · rw [flatMap_map]
    exact finished_flatMap fun r _ => finished_route none r.target
  · rw [flatMap_map]
    exact finished_flatMap fun t _ => finished_route none t
  · split
    · simpa using finished_respond _
    · exact .inl rfl

def siteFront : Str :=
  host ++ lit " \x7b\n" ++ (siteStatements routes default acme acmeEmail).flatMap rowText

theorem finished_siteFront : Finished (siteFront host routes default acme acmeEmail) := by
  refine .append (.inr ⟨host ++ lit " ", byte '\x7b', ?_, by decide, by decide⟩)
    (finished_siteStatements routes default acme acmeEmail)
  exact (append_assoc host (lit " ") (lit "\x7b\n")).symm

theorem writeSite_nil : writeSite host routes default [] acme acmeEmail =
      siteFront host routes default acme acmeEmail ++ lit "\x7d\n" := by
  rw [writeSite, if_pos rfl, append_nil]
  rfl

theorem writeSite_fragment
    (h : fragment ≠ []) (acme : Bool) (acmeEmail : Str) :
    writeSite host routes default fragment acme acmeEmail =
      siteFront host routes default acme acmeEmail ++ (fragmentLines fragment ++ lit "\x7d\n") := by
  rw [writeSite, if_neg h, append_assoc _ (fragmentLines fragment)]
  rfl

/-! ## What is accepted -/

def quotedWords (fragment : Str) : List Str :=
  ((lexemes (fragmentLines fragment)).getD []).filterMap fun
    | .word text true => some text
    | _ => none

structure FragmentLexemes (fragment : Str) (stmts : List Node) (fs : List Lexeme) : Prop where
  lexed : lexFrom true (fragmentLines fragment ++ lit "\x7d\n") = some (fs ++ [.closeBrace, .newline, .eof])
  alone : lexemes (fragmentLines fragment) = some (fs ++ [.eof])
  block : Block 1 (fs ++ [.closeBrace, .newline, .eof]) stmts [.newline, .eof]
  bare : ∀ w, .word w false ∈ fs → containsEnvPlaceholder w = false

theorem lexFrom_wrapper (s : Str) : lexFrom true (lit "_validate.test \x7b\n" ++ s) =
    (lexFrom true s).map fun xs => .word (lit "_validate.test") false :: .openBrace :: .newline :: xs := by
  have hlex : lexFrom true (lit "_validate.test \x7b\n") =
      some ([.word (lit "_validate.test") false, .openBrace, .newline] ++ [.eof]) := by decide
  have hfinished : Finished (lit "_validate.test \x7b\n") :=
    .inr ⟨lit "_validate.test ", byte '\x7b', rfl, by decide, by decide⟩
  obtain ⟨us, st, hreads, heq⟩ := exists_reads_of_lexFrom hfinished.lines hlex
  obtain ⟨rfl, -⟩ := append_inj' heq rfl
  obtain rfl : st = true := hreads.atLineStart (by decide) hfinished.lines hfinished.not_continued
  exact hreads.lexFrom_append hfinished.lines s

theorem exists_fragmentLexemes {site : Site}
    (hparse : parse (buildBareFragmentWrapper fragment) = some ⟨none, [site], []⟩)
    (hguard : containsEnvPlaceholder fragment = false) :
    site.addresses = [lit "_validate.test"] ∧ ∃ fs, FragmentLexemes fragment site.body fs := by
  obtain ⟨xs, hxs, htop⟩ := (parse_eq_some_top rfl).mp hparse
  rw [buildBareFragmentWrapper, append_assoc, lexFrom_wrapper] at hxs
  obtain ⟨zs, hzs, rfl⟩ := map_eq_some_iff.mp hxs
  have hlines := lines_fragmentLines fragment
  obtain ⟨fs, st, hreads⟩ := exists_reads hlines (by decide) hzs
  rw [hreads.lexFrom_append hlines] at hzs
  obtain rfl := some.inj hzs
  have hblock : site.addresses = [lit "_validate.test"] ∧
      ∃ rest, Block 1 (fs ++ [.closeBrace, .newline, .eof]) site.body rest ∧ Top rest [] [] := by
    cases htop with
    | site _ hheader _ hblock hrest =>
      cases hheader
      exact ⟨rfl, _, hblock.congr rfl, hrest⟩
  obtain ⟨haddrs, rest, hblock, hrest⟩ := hblock
  obtain ⟨p, heq, -⟩ := hblock.extend
  obtain ⟨-, rfl⟩ := hrest.closes_last heq hreads.eof_notMem
  refine ⟨haddrs, fs, ?_, ?_, hblock, ?_⟩
  · rw [hreads.lexFrom_append hlines, lexFrom_closing, map_some]
  · have halone := hreads.lexFrom_append hlines []
    rw [append_nil] at halone
    rw [fragmentLines_eq]
    rw [fragmentLines_eq] at halone
    exact halone
  · intro w hw
    exact hreads.guarded (.inl (containsEnvPlaceholder_fragmentLines hguard)) hw

section

variable {fragment : Str} {stmts : List Node} {fs : List Lexeme} (hf : FragmentLexemes fragment stmts fs)

include hf

theorem FragmentLexemes.texts_eq : texts fs = wordsOf stmts := by
  have hwords := hf.block.texts
  rw [texts_append] at hwords
  exact append_cancel_right hwords

theorem FragmentLexemes.guarded_iff : (∀ w ∈ wordsOf stmts, containsEnvPlaceholder w = false) ↔
    ∀ w ∈ quotedWords fragment, containsEnvPlaceholder w = false := by
  have hquoted : ∀ w, w ∈ quotedWords fragment ↔ .word w true ∈ fs := by
    intro w
    rw [quotedWords, hf.alone, mem_filterMap]
    constructor
    · rintro ⟨x, hx, htext⟩
      split at htext
      next =>
        cases htext
        simpa using hx
      next => cases htext
    · exact fun hw => ⟨_, mem_append_left _ hw, rfl⟩
  have hall : ∀ w, w ∈ wordsOf stmts ↔ ∃ quoted, .word w quoted ∈ fs := by
    intro w
    rw [← hf.texts_eq, texts, mem_filterMap]
    constructor
    · rintro ⟨x, hx, htext⟩
      cases x with
      | word text quoted =>
        cases htext
        exact ⟨quoted, hx⟩
      | newline | semicolon | comment | openBrace | closeBrace | eof => cases htext
    · exact fun ⟨quoted, hw⟩ => ⟨_, hw, rfl⟩
  constructor
  · exact fun h w hw => h w ((hall w).mpr ⟨true, (hquoted w).mp hw⟩)
  · intro h w hw
    obtain ⟨quoted, hw⟩ := (hall w).mp hw
    cases quoted with
    | true => exact h w ((hquoted w).mpr hw)
    | false => exact hf.bare w hw

variable {host routes default acme acmeEmail} in
theorem FragmentLexemes.siteText {site : Site}
    (hsite : SiteText (writeSite host routes default [] acme acmeEmail) site) :
    SiteText (writeSite host routes default fragment acme acmeEmail) ⟨site.addresses, site.body ++ stmts⟩ := by
  by_cases hnil : fragment = []
  · subst hnil
    have hempty : lexemes (fragmentLines []) = some ([] ++ [.eof]) := rfl
    obtain ⟨rfl, -⟩ := append_inj' (some.inj (hf.alone.symm.trans hempty)) rfl
    have hstmts : stmts = [] := by
      have hblock := hf.block
      cases hblock with
      | close => rfl
      | plain _ h => cases h
      | nested _ h => 
        obtain ⟨_, _, h, -⟩ := h
        cases h
    rwa [hstmts, append_nil]
  · rw [writeSite_nil] at hsite
    rw [writeSite_fragment _ _ _ hnil]
    have hfront := finished_siteFront host routes default acme acmeEmail
    have hfrontNe : siteFront host routes default acme acmeEmail ≠ [] := by
      simp +decide [siteFront]
    generalize siteFront host routes default acme acmeEmail = front at hsite hfront hfrontNe ⊢
    obtain ⟨xs, hxs, htop⟩ := (parse_eq_some_top hsite.unmarked).mp hsite.parsed
    obtain ⟨us, st, hreads⟩ := exists_reads hfront.lines (by decide) hxs
    obtain rfl : st = true := hreads.atLineStart hfrontNe hfront.lines hfront.not_continued
    rw [hreads.lexFrom_append hfront.lines] at hxs
    obtain rfl := some.inj hxs
    obtain ⟨p, zs, heq, hzs, hextend⟩ := htop.site_extend
    obtain ⟨rfl, rfl⟩ := hzs.closes_last heq hreads.eof_notMem
    have hdivides : Divides p (fs ++ [.closeBrace, .newline, .eof]) := by
      rcases hreads.getLast? rfl with hlast | ⟨hempty, -⟩
      · exact .inr (.inl ⟨.newline, hlast, rfl⟩)
      · exact .inl hempty
    have hunmarked := unmarked_lines (u := fragmentLines fragment ++ lit "\x7d\n") hfront.lines hfrontNe
      hsite.unmarked
    refine ⟨?_, hunmarked, (parse_eq_some_top hunmarked).mpr ⟨_, ?_, hextend hf.block hdivides (.eof rfl)⟩⟩
    · exact .inr (getLast?_eq_some_iff.mpr ⟨front ++ (fragmentLines fragment ++ lit "\x7d"), by simp; rfl⟩)
    · rw [hreads.lexFrom_append hfront.lines, hf.lexed, map_some]

end

/-! ## What is accepted -/

theorem validateFragment_eq_true {loads : Str → Bool} (h : validateFragment loads fragment = true) :
    containsEnvPlaceholder fragment = false ∧ ∃ site : Site,
      parse (buildBareFragmentWrapper fragment) = some ⟨none, [site], []⟩ ∧
      firstDeniedDirective site.body = none := by
  rw [validateFragment] at h
  split at h
  next => cases h
  next hguard =>
    refine ⟨Bool.eq_false_iff.mpr hguard, ?_⟩
    split at h
    next site hparse => exact ⟨site, hparse, isNone_iff_eq_none.mp (Bool.and_eq_true_iff.mp h).1⟩
    next => cases h

theorem nodeDenied_of_mem {body : List Node} (h : firstDeniedDirective body = none) {n : Node} (hn : n ∈ body) :
    nodeDenied n = none := by
  induction body with
  | nil => cases hn
  | cons m body ih =>
    rw [firstDeniedDirective, or_eq_none_iff] at h
    rcases mem_cons.mp hn with rfl | hn
    · exact h.1
    · exact ih h.2 hn

theorem notMem_denied {body : List Node} (h : firstDeniedDirective body = none) {name : Str} {args : List Arg}
    {block : Option (List Node)} (hn : Occurs (.directive name args block) body) :
    name ∉ deniedFragmentDirectives := by
  induction hn with
  | here hmem =>
    have hnone := nodeDenied_of_mem h hmem
    intro hdenied
    cases block with
    | none | some block =>
      rw [nodeDenied, if_pos hdenied] at hnone
      cases hnone
  | inside hmem _ ih =>
    have hnone := nodeDenied_of_mem h hmem
    rw [nodeDenied] at hnone
    split at hnone
    next => cases hnone
    next => exact ih hnone

/-- **A fragment stays within its site.** Behind sites and in front of sites, a site with an accepted
fragment is read as the site without it and the statements that were checked. None of them is
denied. They have no placeholder exactly if no quoted word has one when it is read. -/
theorem writeSite_contained {loads : Str → Bool} {fragment : Str}
    (haccepted : validateFragment loads fragment = true) {host : Str} {routes : List Route}
    {default : Option Target} {acme : Bool} {acmeEmail : Str} {site : Site}
    (hsite : SiteText (writeSite host routes default [] acme acmeEmail) site)
    {before after : List (Str × Site)} (hbefore : ∀ t ∈ before, SiteText t.1 t.2)
    (hafter : ∀ t ∈ after, SiteText t.1 t.2) :
    ∃ stmts,
      parse (buildBareFragmentWrapper fragment) = some ⟨none, [⟨[lit "_validate.test"], stmts⟩], []⟩ ∧
      parse (before.flatMap Prod.fst ++ writeSite host routes default fragment acme acmeEmail ++
          after.flatMap Prod.fst) =
        some ⟨none, before.map Prod.snd ++ ⟨site.addresses, site.body ++ stmts⟩ :: after.map Prod.snd, []⟩ ∧
      (∀ name args block, Occurs (.directive name args block) stmts → name ∉ deniedFragmentDirectives) ∧
      ((∀ w ∈ wordsOf stmts, containsEnvPlaceholder w = false) ↔
        ∀ w ∈ quotedWords fragment, containsEnvPlaceholder w = false) := by
  obtain ⟨hguard, ⟨addrs, stmts⟩, hparse, hdenied⟩ := validateFragment_eq_true haccepted
  obtain ⟨rfl, fs, hf⟩ := exists_fragmentLexemes hparse hguard
  refine ⟨stmts, hparse, ?_, fun name args block hn => notMem_denied hdenied hn, hf.guarded_iff⟩
  have hall : ∀ t ∈ before ++ (writeSite host routes default fragment acme acmeEmail,
      (⟨site.addresses, site.body ++ stmts⟩ : Site)) :: after, SiteText t.1 t.2 := by
    intro t ht
    rcases mem_append.mp ht with ht | ht
    · exact hbefore t ht
    · rcases mem_cons.mp ht with rfl | ht
      · exact hf.siteText hsite
      · exact hafter t ht
  have hparsed := parse_siteTexts hall
  rw [flatMap_append, map_append] at hparsed
  rw [append_assoc]
  exact hparsed

def tenant : Target := ⟨lit "team", lit "web", lit "80"⟩

def tenantSite : Site := ⟨[lit "web.example.com"],
  [.directive (lit "upstream") [plainArg (lit "u_team_web_80")]
      (some [.directive (lit "to") [plainArg (lit "k8s://web.team:80")] none]),
    .directive (lit "route") [plainArg (lit "->"), plainArg (lit "u_team_web_80")] none]⟩

def tenantText (fragment : Str) : Str := writeSite (lit "web.example.com") [] (some tenant) fragment false []

def neighbours : List (Str × Site) :=
  [(lit "a.example.com \x7b\n\tstrip_query utm_*\n\x7d\n",
    ⟨[lit "a.example.com"], [.directive (lit "strip_query") [plainArg (lit "utm_*")] none]⟩)]

theorem neighbours_siteText : ∀ t ∈ neighbours, SiteText t.1 t.2 := by
  intro t ht
  obtain rfl := mem_singleton.mp ht
  exact ⟨.inr (by decide), by decide, by decide +kernel⟩

theorem tenantText_siteText : SiteText (tenantText []) tenantSite :=
  ⟨.inr (by decide), by decide, by decide +kernel⟩

def framed : Str := lit "header X-Frame-Options \"DENY\"\n"

theorem writeSite_contained_framed : ∃ stmts,
    parse (buildBareFragmentWrapper framed) = some ⟨none, [⟨[lit "_validate.test"], stmts⟩], []⟩ ∧
      parse (neighbours.flatMap Prod.fst ++ tenantText framed ++ neighbours.flatMap Prod.fst) =
        some ⟨none, neighbours.map Prod.snd ++ ⟨tenantSite.addresses, tenantSite.body ++ stmts⟩ ::
          neighbours.map Prod.snd, []⟩ ∧
      ∀ w ∈ wordsOf stmts, containsEnvPlaceholder w = false := by
  have haccepted : validateFragment (fun _ => true) framed = true := by decide +kernel
  obtain ⟨stmts, hstmts, hparse, -, hguarded⟩ :=
    writeSite_contained haccepted tenantText_siteText neighbours_siteText neighbours_siteText
  exact ⟨stmts, hstmts, hparse, hguarded.mpr (by decide +kernel)⟩

def escaped : Str := lit "header X-Token \"\\\\\\\x7b$ADMIN_TOKEN\x7d\"\n"

def podEnvironment : Environment := fun name => if name = lit "ADMIN_TOKEN" then some (lit "s3cret") else none

theorem validateFragment_escaped :
    validateFragment (fun _ => true) escaped = true ∧
      (parse (tenantText escaped)).map (fun f => f.sites.map (·.body.drop 2)) =
        some [[.directive (lit "header")
          [⟨lit "X-Token", false⟩, ⟨lit "\\\\\x7b$ADMIN_TOKEN\x7d", true⟩] none]] ∧
      containsEnvPlaceholder (lit "\\\\\x7b$ADMIN_TOKEN\x7d") = true ∧
      (parse (tenantText escaped)).map (fun f => (substituteEnv podEnvironment f).sites.map (·.body.drop 2)) =
        some [[.directive (lit "header") [⟨lit "X-Token", false⟩, ⟨lit "\\\\s3cret", true⟩] none]] := by
  decide +kernel

end Ingress

end Cadish
