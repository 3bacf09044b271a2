import Cadish.Cadishfile.Chunks
import Cadish.Cadishfile.Reflow

/-!
# Sites one behind the other

What is parsed of a site depends on nothing behind its closing brace. So **sites written one behind
the other are parsed as these sites** (`parse_siteTexts`), and **lines put in front of the closing
brace are parsed as in a site of their own** (`Block.extend`). Both hold of whole lines.
-/

namespace Cadish

open List Option

namespace Cadishfile

variable {xs ys q p rest : List Lexeme} {n : Node} {body : List Node} {site : Site} {sites : List Site}
  {s : Str}

/-! ## Separators -/

section

variable {ps : List Lexeme} (hps : ∀ x ∈ ps, x.isSeparator = true)

include hps

theorem skipSeparators_append (xs : List Lexeme) : skipSeparators (ps ++ xs) = skipSeparators xs := by
  induction ps with
  | nil => rfl
  | cons x ps ih =>
    obtain ⟨hx, hps⟩ := forall_mem_cons.mp hps
    rw [cons_append, skipSeparators_cons hx, ih hps]

theorem Block.separators {depth : Nat} {xs rest : List Lexeme} {body : List Node}
    (h : Block depth xs body rest) : Block depth (ps ++ xs) body rest :=
  h.congr (skipSeparators_append hps xs)

theorem Top.separators {xs : List Lexeme} {sites : List Site} {body : List Node} (h : Top xs sites body) :
    Top (ps ++ xs) sites body :=
  h.congr (skipSeparators_append hps xs)

end

theorem skipSeparators_of_head (h : ∀ x ∈ xs.head?, x.isSeparator = false) :
    skipSeparators xs = xs := by
  cases xs with
  | nil => rfl
  | cons x xs =>
    cases x with
    | newline | semicolon | comment => cases h _ rfl
    | word | openBrace | closeBrace | eof => rfl

theorem exists_separators (xs : List Lexeme) :
    ∃ ps, (∀ x ∈ ps, x.isSeparator = true) ∧ xs = ps ++ skipSeparators xs := by
  fun_induction skipSeparators xs with
  | case1 xs ih | case2 xs ih | case3 _ xs ih =>
    obtain ⟨ps, hps, heq⟩ := ih
    exact ⟨_ :: ps, forall_mem_cons.mpr ⟨rfl, hps⟩, congrArg (_ :: ·) heq⟩
  | case4 xs => exact ⟨[], by simp, rfl⟩

/-! ## Statements -/

theorem OpensBlock.frame {name : Str} {args : List Arg} (h : OpensBlock xs name args ys) :
    ∃ q, xs = q ++ ys ∧ ∀ ys', OpensBlock (q ++ ys') name args ys' := by
  obtain ⟨quoted, hdef, rfl⟩ := opensBlock_iff.mp h
  exact ⟨.word name quoted :: (args.map Arg.lexeme ++ [.openBrace]), by simp,
    fun ys' => opensBlock_iff.mpr ⟨quoted, hdef, by simp⟩⟩

variable {depth : Nat} {e : List Lexeme} {start : Bool} {text : Str}

theorem PlainWords.getLast (h : PlainWords q n) :
    ∃ text quoted, q.getLast? = some (.word text quoted) := by
  have hwords : ∀ (text : Str) (quoted : Bool) (args : List Arg), ∃ text' quoted',
      (Lexeme.word text quoted :: args.map Arg.lexeme).getLast? = some (.word text' quoted') := by
    intro text quoted args
    induction args generalizing text quoted with
    | nil => exact ⟨text, quoted, rfl⟩
    | cons a args ih =>
      exact ih a.raw a.quoted
  cases h with
  | @matcherDef text type quoted quoted' args =>
    exact hwords type quoted' args
  | @directive name quoted args => exact hwords name quoted args

/-! ## Blocks -/

/-- The lexemes can be followed by these in a block: no statement goes on. -/
def Divides (p ys : List Lexeme) : Prop :=
  p = [] ∨ (∃ x, p.getLast? = some x ∧ x.isSeparator = true) ∨ ys.head? = some .closeBrace

theorem Divides.of_append (h : Divides (p ++ q) ys) : Divides q ys := by
  cases q with
  | nil => exact .inl rfl
  | cons x q =>
    rcases h with h | ⟨y, hy, hsep⟩ | h
    · exact absurd h (by simp)
    · rw [getLast?_append_of_ne_nil _ (cons_ne_nil x q)] at hy
      exact .inr (.inl ⟨y, hy, hsep⟩)
    · exact .inr (.inr h)

theorem Divides.head (h : Divides p ys) {x : Lexeme} (hlast : p.getLast? = some x)
    (hx : x.isSeparator = false) : ys.head? = some .closeBrace := by
  rcases h with rfl | ⟨y, hy, hsep⟩ | h
  · cases hlast
  · rw [hlast] at hy
    cases hy
    rw [hx] at hsep
    cases hsep
  · exact h

theorem StatementEnd.extend {x : Lexeme} (h : StatementEnd e (p ++ .closeBrace :: rest))
    (hx : x.isSeparator = false) (hdivides : Divides ([x] ++ e ++ p) ys)
    : StatementEnd e (p ++ ys) := by
  cases h with
  | separator h => exact .separator h
  | closing h =>
    cases p with
    | nil => exact .closing (.inl (hdivides.head rfl hx))
    | cons y p => exact .closing h

theorem PlainWords.skipSeparators (h : PlainWords q n) (xs : List Lexeme) :
    Cadishfile.skipSeparators (q ++ xs) = q ++ xs := by
  cases h <;> rfl

theorem OpensBlock.skipSeparators {name : Str} {args : List Arg} (h : OpensBlock xs name args ys) :
    Cadishfile.skipSeparators xs = xs := by
  obtain ⟨quoted, zs, rfl, -⟩ := h
  rfl

theorem Block.close_append (hdepth : depth ≤ maxBlockDepth)
    (h : ∀ {ys rest' : List Lexeme} {stmts : List Node}, Block depth ys stmts rest' → Divides p ys → Block depth (p ++ ys) (body ++ stmts) rest') :
    Block depth (p ++ .closeBrace :: rest) body rest := by
  have hclose : Block depth (.closeBrace :: rest) [] rest := .close hdepth rfl
  have hblock := h hclose (.inr (.inr rfl))
  rwa [append_nil] at hblock

theorem Block.extend (h : Block depth xs body rest) :
    ∃ p, xs = p ++ .closeBrace :: rest ∧ ∀ {ys rest' : List Lexeme} {stmts : List Node},
      Block depth ys stmts rest' → Divides p ys → Block depth (p ++ ys) (body ++ stmts) rest' := by
  induction h with
  | @close depth xs rest hdepth h =>
    obtain ⟨ps, hps, heq⟩ := exists_separators xs
    rw [h] at heq
    exact ⟨ps, heq, fun hblock _ => hblock.separators hps⟩
  | @plain depth xs ys rest n body hdepth h hrest ih =>
    obtain ⟨ps, hps, heq⟩ := exists_separators xs
    obtain ⟨q, e, hq, he, hskip⟩ := plainStatement_iff.mp h
    obtain ⟨p, rfl, hp⟩ := ih
    obtain ⟨text, quoted, hlast⟩ := hq.getLast
    obtain ⟨q', hq'⟩ := getLast?_eq_some_iff.mp hlast
    refine ⟨ps ++ (q ++ (e ++ p)), by rw [heq, hskip]; simp, fun {ys rest' stmts} hblock hdivides => ?_⟩
    have hword : Divides ([.word text quoted] ++ e ++ p) ys := by
      rw [hq'] at hdivides
      refine Divides.of_append (p := ps ++ q') ?_
      simpa using hdivides
    have hend := he.extend rfl hword
    have hstmt : plainStatement (skipSeparators (ps ++ (q ++ (e ++ p)) ++ ys)) = some (n, p ++ ys) := by
      rw [append_assoc, skipSeparators_append hps, append_assoc, hq.skipSeparators]
      exact plainStatement_iff.mpr ⟨q, e, hq, hend, by simp⟩
    exact .plain hdepth hstmt (hp hblock hword.of_append)
  | @nested depth xs ys zs us rest name args inner body hdepth h hblock hend hrest ihb ih =>
    obtain ⟨ps, hps, heq⟩ := exists_separators xs
    obtain ⟨q, hskip, hopens⟩ := h.frame
    obtain ⟨pb, rfl, hpb⟩ := ihb
    obtain ⟨e, rfl, he⟩ := expectStatementEnd_iff.mp hend
    obtain ⟨p, rfl, hp⟩ := ih
    refine ⟨ps ++ (q ++ (pb ++ .closeBrace :: (e ++ p))), by rw [heq, hskip]; simp,
      fun {ys rest' stmts} hblock' hdivides => ?_⟩
    have hbrace : Divides ([.closeBrace] ++ e ++ p) ys := by
      refine Divides.of_append (p := ps ++ (q ++ pb)) ?_
      simpa using hdivides
    have hinner : Block (depth + 1) (pb ++ .closeBrace :: (e ++ (p ++ ys))) inner (e ++ (p ++ ys)) :=
      Block.close_append hblock.uncons.1 hpb
    have hopens' := hopens (pb ++ .closeBrace :: (e ++ (p ++ ys)))
    have hskip' : skipSeparators (ps ++ (q ++ (pb ++ .closeBrace :: (e ++ p))) ++ ys) =
        q ++ (pb ++ .closeBrace :: (e ++ (p ++ ys))) := by
      rw [append_assoc, skipSeparators_append hps, ← hopens'.skipSeparators]
      simp
    refine .nested hdepth (hskip' ▸ hopens') hinner ?_ (hp hblock' hbrace.of_append)
    exact expectStatementEnd_iff.mpr ⟨e, rfl, he.extend rfl hbrace⟩

/-! ## Sites -/

theorem siteHeader_frame {us : List Lexeme} {addrs : List Str} (h : siteHeader us = some (addrs, ys)) :
    ∃ hs, us = hs ++ .openBrace :: ys ∧ ∀ ys', siteHeader (hs ++ .openBrace :: ys') = some (addrs, ys') ∧
      ∀ b, headerAhead b (hs ++ .openBrace :: ys') = headerAhead b (hs ++ .openBrace :: ys) := by
  fun_induction siteHeader us generalizing addrs with
  | case1 xs =>
    cases h
    exact ⟨[], rfl, fun ys' => ⟨rfl, fun _ => rfl⟩⟩
  | case2 text quoted xs ih =>
    obtain ⟨⟨addrs', ys'⟩, h', hr⟩ := map_eq_some_iff.mp h
    cases hr
    obtain ⟨hs, rfl, hframe⟩ := ih h'
    refine ⟨.word text quoted :: hs, rfl, fun ys' => ⟨?_, fun b => (hframe ys').2 _⟩⟩
    rw [cons_append, siteHeader, (hframe ys').1]
    rfl
  | case3 xs ih =>
    obtain ⟨hs, rfl, hframe⟩ := ih h
    refine ⟨.newline :: hs, rfl, fun ys' => ⟨(hframe ys').1, fun b => ?_⟩⟩
    exact congrArg (b && ·) ((hframe ys').2 b)
  | case4 c xs ih =>
    obtain ⟨hs, rfl, hframe⟩ := ih h
    exact ⟨.comment c :: hs, rfl, fun ys' => ⟨(hframe ys').1, fun b => (hframe ys').2 b⟩⟩
  | case5 => cases h

theorem startsSiteBlock_frame {hs ys' : List Lexeme}
    (h : ∀ b, headerAhead b (hs ++ .openBrace :: ys') = headerAhead b (hs ++ .openBrace :: ys)) :
    startsSiteBlock (hs ++ .openBrace :: ys') = startsSiteBlock (hs ++ .openBrace :: ys) := by
  cases hs with
  | nil => rfl
  | cons x hs =>
    cases x with
    | word text quoted => exact congrArg (!isDefName text quoted && ·) (h true)
    | openBrace | closeBrace | semicolon | newline | comment | eof => exact h true

theorem Top.site_extend (h : Top xs [site] []) :
    ∃ p zs, xs = p ++ .closeBrace :: zs ∧ Top zs [] [] ∧
      ∀ {ys rest : List Lexeme} {stmts nodes : List Node} {sites : List Site}, Block 1 ys stmts rest →
        Divides p ys → Top rest sites nodes →
        Top (p ++ ys) (⟨site.addresses, site.body ++ stmts⟩ :: sites) nodes := by
  cases h with
  | @site _ us zs _ _ _ _ hstarts hheader haddrs hblock hrest =>
    obtain ⟨ps, hps, heq⟩ := exists_separators xs
    obtain ⟨hs, hskip, hframe⟩ := siteHeader_frame hheader
    obtain ⟨p, rfl, hp⟩ := hblock.extend
    refine ⟨ps ++ (hs ++ .openBrace :: p), zs, by rw [heq, hskip]; simp, hrest, ?_⟩
    intro ys rest stmts nodes sites hblock hdivides htop
    have hdivides : Divides p ys := by
      refine Divides.of_append (p := ps ++ (hs ++ [.openBrace])) ?_
      simpa using hdivides
    have hskip' : skipSeparators (ps ++ (hs ++ .openBrace :: p) ++ ys) = hs ++ .openBrace :: (p ++ ys) := by
      have hhead := skipSeparators_head xs
      rw [hskip] at hhead
      rw [append_assoc, skipSeparators_append hps, append_assoc]
      refine skipSeparators_of_head fun x hx => hhead x ?_
      cases hs <;> exact hx
    obtain ⟨hheader', hahead⟩ := hframe (p ++ ys)
    refine .site ?_ (hskip' ▸ hheader') haddrs (hp hblock hdivides) htop
    rw [hskip', startsSiteBlock_frame hahead, ← hskip]
    exact hstarts

/-! ## Files -/

theorem Top.ne_openBrace (h : Top xs sites body) (ys : List Lexeme) :
    skipSeparators xs ≠ .openBrace :: ys := by
  intro hopen
  cases h with
  | eof h =>
    rw [hopen] at h
    cases h
  | site _ hheader haddrs =>
    rw [hopen] at hheader
    cases hheader
    exact haddrs rfl
  | statement _ _ h =>
    rw [hopen] at h
    obtain h | ⟨name, args, zs, inner, us, ⟨quoted, vs, h, -⟩, -⟩ := h <;> cases h

theorem parse_eq_some_top {src : Str} (hbom : Str.hasPrefix src bom = false) :
    parse src = some ⟨none, sites, body⟩ ↔ ∃ xs, lexFrom true src = some xs ∧ Top xs sites body := by
  have hlex : lexemes src = lexFrom true src := by
    rw [lexemes_eq_lexFrom, newLexer, hbom]
    rfl
  rw [parse, hlex, bind_eq_some_iff]
  refine exists_congr fun xs => and_congr_right fun _ => ?_
  rw [parseFile_eq_some]
  constructor
  · rintro (⟨ys, inner, zs, -, hnone, -⟩ | ⟨-, -, htop⟩)
    · cases hnone
    · exact top_skipSeparators.mp htop
  · exact fun htop => .inr ⟨htop.ne_openBrace, rfl, top_skipSeparators.mpr htop⟩

structure SiteText (text : Str) (site : Site) : Prop where
  lines : Lines text
  unmarked : Str.hasPrefix text bom = false
  parsed : parse text = some ⟨none, [site], []⟩

theorem Reads.eof_notMem {st : Bool} (h : Reads start s xs st) : .eof ∉ xs := by
  induction h with
  | nil => exact not_mem_nil
  | turn h _ ih =>
    rw [mem_append, not_or]
    refine ⟨fun hmem => ?_, ih⟩
    rw [mem_toList] at hmem
    cases h with
    | newline => split at hmem <;> cases hmem
    | blank | continuation => cases hmem
    | token _ h =>
      cases hmem
      cases h

theorem exists_reads_of_lexFrom (hs : Lines s) (h : lexFrom start s = some xs) :
    ∃ us st, Reads start s us st ∧ xs = us ++ [.eof] := by
  have happend : lexFrom start (s ++ []) = some xs := by rwa [append_nil]
  obtain ⟨us, st, hreads⟩ := exists_reads hs not_mem_nil happend
  refine ⟨us, st, hreads, ?_⟩
  rw [hreads.lexFrom_append hs] at happend
  exact (some.inj happend).symm

theorem unmarked_lines {u v : Str} (hs : Lines s) (hne : s ≠ [])
    (h : Str.hasPrefix (s ++ v) bom = false) : Str.hasPrefix (s ++ u) bom = false := by
  by_contra hmark
  obtain ⟨t, rfl⟩ := getLast?_eq_some_iff.mp (hs.resolve_left hne)
  have hline : Str.hasPrefix (t ++ Str.byte '\n' :: u) bom = true := by simpa using hmark
  have hmarked : bom <+: t := isPrefixOf_iff_prefix.mp (hasPrefix_bom_append (by decide) hline)
  rw [append_assoc, Str.hasPrefix,
    isPrefixOf_iff_prefix.mpr (hmarked.trans (prefix_append t _))] at h
  cases h

theorem SiteText.unmarked_append (h : SiteText text site) (u : Str) :
    Str.hasPrefix (text ++ u) bom = false := by
  have hne : text ≠ [] := by
    intro hnil
    have hparsed := h.parsed
    subst hnil
    cases hparsed
  exact unmarked_lines h.lines hne ((append_nil text).symm ▸ h.unmarked)

theorem Top.rest_separators (h : Top (xs ++ [.eof]) [] []) (heof : .eof ∉ xs) :
    ∀ x ∈ xs, x.isSeparator = true := by
  cases h with
  | @eof _ ys h =>
    obtain ⟨ps, hps, heq⟩ := exists_separators (xs ++ [.eof])
    rw [h] at heq
    rcases append_eq_append_iff.mp heq with ⟨a, rfl, -⟩ | ⟨c, rfl, hc⟩
    · exact fun x hx => hps x (mem_append_left a hx)
    cases c with
    | nil => simpa using hps
    | cons x c =>
      obtain ⟨rfl, -⟩ := cons.inj hc
      exact absurd (mem_append_right ps mem_cons_self) heof

theorem SiteText.append (h : SiteText text site) {u : Str} (hlex : lexFrom true u = some ys)
    (htop : Top ys sites body) :
    ∃ xs, lexFrom true (text ++ u) = some xs ∧ Top xs (site :: sites) body := by
  obtain ⟨xs, hxs, hsite⟩ := (parse_eq_some_top h.unmarked).mp h.parsed
  obtain ⟨us, st, hreads, rfl⟩ := exists_reads_of_lexFrom h.lines hxs
  obtain ⟨p, zs, heq, hzs, hextend⟩ := hsite.site_extend
  have hsplit : ∃ zs', us = p ++ .closeBrace :: zs' ∧ zs = zs' ++ [.eof] := by
    rcases zs.eq_nil_or_concat with rfl | ⟨zs', z, rfl⟩
    · exact absurd (append_inj' heq rfl).2 (by simp)
    · have hsame : us ++ [.eof] = (p ++ .closeBrace :: zs') ++ [z] := by simpa using heq
      obtain ⟨hus, hz⟩ := append_inj' hsame rfl
      obtain ⟨rfl, -⟩ := cons.inj hz
      exact ⟨zs', hus, concat_eq_append⟩
  obtain ⟨zs', rfl, rfl⟩ := hsplit
  have heof : .eof ∉ zs' := fun hmem =>
    hreads.eof_notMem (mem_append_right p (mem_cons_of_mem _ hmem))
  have hgoes : ∃ ys', lexFrom st u = some ys' ∧ Top ys' sites body := by
    cases st with
    | true => exact ⟨ys, hlex, htop⟩
    | false =>
      rcases lexFrom_false u with hsame | hline
      · exact ⟨ys, hsame.trans hlex, htop⟩
      · rw [hlex] at hline
        exact ⟨_, hline, @Top.separators [.newline] (by simp [Lexeme.isSeparator]) _ _ _ htop⟩
  obtain ⟨ys', hys', htop'⟩ := hgoes
  refine ⟨_, by rw [hreads.lexFrom_append h.lines, hys', map_some], ?_⟩
  have hclose : Block 1 (.closeBrace :: (zs' ++ ys')) [] (zs' ++ ys') := .close (by decide) rfl
  have hall := hextend hclose (.inr (.inr rfl)) (htop'.separators (hzs.rest_separators heof))
  rw [append_nil] at hall
  rw [append_assoc]
  exact hall

theorem parse_siteTexts {ts : List (Str × Site)} (h : ∀ t ∈ ts, SiteText t.1 t.2) :
    parse (ts.flatMap Prod.fst) = some ⟨none, ts.map Prod.snd, []⟩ := by
  have htop : ∃ xs, lexFrom true (ts.flatMap Prod.fst) = some xs ∧ Top xs (ts.map Prod.snd) [] := by
    induction ts with
    | nil => exact ⟨[.eof], rfl, .eof rfl⟩
    | cons t ts ih =>
      obtain ⟨ht, hts⟩ := forall_mem_cons.mp h
      obtain ⟨ys, hlex, htop⟩ := ih hts
      exact ht.append hlex htop
  refine (parse_eq_some_top ?_).mpr htop
  cases ts with
  | nil => rfl
  | cons t ts =>
    have ht := h t mem_cons_self
    exact ht.unmarked_append _

end Cadishfile

end Cadish
