import Cadish.Cadishfile.Lines

/-!
# Environment placeholders, and values from outside

`SubstituteEnv` replaces `{$VAR}` in the arguments of a parsed file. **A value that is written with
`QuoteArg`, and has no placeholder, is one argument and nothing but that**, whatever follows on the
next line, and no environment changes it (`quoteArg_safe`).
-/

namespace Cadish

open List Str

namespace Cadishfile

/-! ## Substitution -/

def containsEnvPlaceholder : Str → Bool
  | b :: c :: s =>
    if b = byte '\\' then containsEnvPlaceholder s
    else if b = byte '{' ∧ c = byte '$' then true
    else containsEnvPlaceholder (c :: s)
  | _ => false

abbrev Environment := Str → Option Str

def envValue (lookup : Environment) (spec : Str) : Str :=
  match cut (byte ':') spec with
  | some (name, default) => (lookup name).getD default
  | none => (lookup spec).getD []

/-- The loop of `expandEnv`. Every turn takes a byte at least. -/
def expandFrom (lookup : Environment) : Nat → Str → Str
  | 0, s => s
  | _ + 1, [] => []
  | fuel + 1, b :: s =>
    if b = byte '\\' then
      match s with
      | [] => [b]
      | c :: s => b :: c :: expandFrom lookup fuel s
    else if b = byte '{' then
      match cut (byte '}') s with
      | none => b :: s
      | some (inner, rest) =>
        if hasPrefix inner (lit "$") then
          envValue lookup (inner.drop 1) ++ expandFrom lookup fuel rest
        else b :: (inner ++ byte '}' :: expandFrom lookup fuel rest)
    else b :: expandFrom lookup fuel s

def expandEnv (lookup : Environment) (s : Str) : Str := expandFrom lookup s.length s

def substituteArg (lookup : Environment) (a : Arg) : Arg :=
  if a.kind = .placeholder then ⟨expandEnv lookup a.raw, a.quoted⟩
  else if a.quoted && contains a.raw (lit "\x7b$") then ⟨expandEnv lookup a.raw, a.quoted⟩
  else a

mutual

def Node.substitute (lookup : Environment) : Node → Node
  | .matcherDef name type args => .matcherDef name type (args.map (substituteArg lookup))
  | .directive name args none => .directive name (args.map (substituteArg lookup)) none
  | .directive name args (some block) =>
    .directive name (args.map (substituteArg lookup)) (some (substituteNodes lookup block))

def substituteNodes (lookup : Environment) : List Node → List Node
  | [] => []
  | n :: body => n.substitute lookup :: substituteNodes lookup body

end

variable (lookup : Environment) (name : Str) (words : List Str) (t : Str)

def substituteEnv (f : File) : File :=
  ⟨f.globalOptions.map (substituteNodes lookup),
    f.sites.map fun s => ⟨s.addresses, substituteNodes lookup s.body⟩,
    substituteNodes lookup f.body⟩

/-! ## The guard -/

theorem containsEnvPlaceholder_cons {b : UInt8} (hescape : b ≠ byte '\\') (hopen : b ≠ byte '{') (s : Str) :
    containsEnvPlaceholder (b :: s) = containsEnvPlaceholder s := by
  cases s with
  | nil => rfl
  | cons c s => rw [containsEnvPlaceholder, if_neg hescape, if_neg fun h => hopen h.1]

theorem containsEnvPlaceholder_tail {b : UInt8} {s : Str} (hescape : b ≠ byte '\\')
    (h : containsEnvPlaceholder (b :: s) = false) : containsEnvPlaceholder s = false := by
  cases s with
  | nil => rfl
  | cons c s =>
    rw [containsEnvPlaceholder, if_neg hescape] at h
    split at h
    · cases h
    · exact h

theorem containsEnvPlaceholder_escape (c : UInt8) (s : Str) :
    containsEnvPlaceholder (byte '\\' :: c :: s) = containsEnvPlaceholder s := by
  rw [containsEnvPlaceholder, if_pos rfl]

theorem containsEnvPlaceholder_parts {s w : Str} (h : containsEnvPlaceholder (w ++ s) = false) :
    containsEnvPlaceholder w = false ∧
      (containsEnvPlaceholder s = false ∨ containsEnvPlaceholder s.tail = false) := by
  induction w using containsEnvPlaceholder.induct with
  | case1 c w ih =>
    exact ih h
  | case2 b c w hb hc =>
    rw [cons_append, cons_append, containsEnvPlaceholder, if_neg hb, if_pos hc] at h
    cases h
  | case3 b c w hb hc ih =>
    rw [cons_append, cons_append, containsEnvPlaceholder, if_neg hb, if_neg hc] at h
    rw [containsEnvPlaceholder, if_neg hb, if_neg hc]
    exact ih h
  | case4 w hw =>
    cases w with
    | nil => exact ⟨rfl, .inl h⟩
    | cons b w =>
      cases w with
      | cons c w => exact absurd rfl (hw b c w)
      | nil =>
        refine ⟨rfl, ?_⟩
        by_cases hb : b = byte '\\'
        · subst hb
          cases s with
          | nil => exact .inl rfl
          | cons c s =>
            exact .inr h
        · exact .inl (containsEnvPlaceholder_tail hb h)

theorem containsEnvPlaceholder_behind {u rest : Str}
    (h : containsEnvPlaceholder (u ++ byte '}' :: rest) = false) :
    containsEnvPlaceholder rest = false :=
  (containsEnvPlaceholder_parts h).2.elim (containsEnvPlaceholder_tail (by decide)) id

theorem expandFrom_of_guard {fuel : Nat} {s : Str} (hfuel : s.length ≤ fuel)
    (h : containsEnvPlaceholder s = false) : expandFrom lookup fuel s = s := by
  induction fuel generalizing s with
  | zero => rfl
  | succ fuel ih =>
    cases s with
    | nil => rfl
    | cons b s =>
      have hlen : s.length ≤ fuel := Nat.le_of_succ_le_succ hfuel
      unfold expandFrom
      by_cases hescape : b = byte '\\'
      · rw [if_pos hescape]
        cases s with
        | nil => rfl
        | cons c s =>
          unfold containsEnvPlaceholder at h
          rw [if_pos hescape] at h
          dsimp only
          rw [ih (Nat.le_of_succ_le hlen) h]
      rw [if_neg hescape]
      by_cases hopen : b = byte '{'
      · rw [if_pos hopen]
        cases hcut : cut (byte '}') s with
        | none => rfl
        | some r =>
          obtain ⟨inner, rest⟩ := r
          obtain ⟨rfl, -⟩ := cut_eq_some hcut
          have hrest := @containsEnvPlaceholder_behind (b :: inner) rest h
          have hdollar : hasPrefix inner (lit "$") = false := by
            by_contra hdollar
            obtain ⟨t, rfl⟩ :=
              isPrefixOf_iff_prefix.mp (Bool.not_eq_false _ ▸ hdollar)
            change containsEnvPlaceholder (b :: byte '$' :: (t ++ _)) = false at h
            unfold containsEnvPlaceholder at h
            rw [if_neg hescape, if_pos ⟨hopen, rfl⟩] at h
            cases h
          have hshort : rest.length ≤ fuel := by
            rw [length_append, length_cons] at hlen
            omega
          dsimp only
          rw [hdollar, if_neg Bool.false_ne_true, ih hshort hrest]
      · rw [containsEnvPlaceholder_cons hescape hopen] at h
        rw [if_neg hopen, ih hlen h]

theorem substituteArg_quoteArg {t : Str} (h : containsEnvPlaceholder t = false) :
    substituteArg lookup ⟨t, isQuoted t⟩ = ⟨t, isQuoted t⟩ := by
  have hexpand : expandEnv lookup t = t := expandFrom_of_guard lookup (Nat.le_refl _) h
  unfold substituteArg
  rw [hexpand]
  split
  · rfl
  · split
    · rfl
    · rfl

/-! ## A value on a line of its own -/

def argLine : Str :=
  join (lit " ") (name :: (words ++ [quoteArg t]))

def lineArgs : List Arg :=
  words.map (fun w => ⟨w, false⟩) ++ [⟨t, isQuoted t⟩]

def argDirective : Node :=
  .directive name (lineArgs words t) none

/-- The statements of a block that begins with this text, and what is left. -/
def parseBlockFrom (depth : Nat) (src : Str) : Option (List Node × List Lexeme) :=
  (lexFrom true src).bind fun xs => parseBlockBody (xs.length + 1) depth xs

section

variable {name : Str} {words : List Str} {t : Str} (hname : PlainWord name)
  (hwords : ∀ w ∈ words, PlainWord w) (ht : Printable t) (hvalid : toValidRunes 0 t = t)

include hname hwords ht hvalid

theorem lexFrom_argLine (text : Str) :
    lexFrom true (argLine name words t ++ byte '\n' :: text) =
      (lexFrom true text).map fun xs =>
        .word name false :: ((lineArgs words t).map Arg.lexeme ++ .newline :: xs) := by
  have hspells : List.Forall₂ Spells (name :: (words ++ [quoteArg t]))
      (.word name false :: (lineArgs words t).map Arg.lexeme) := by
    refine .cons hname.spells ?_
    rw [lineArgs, map_append, List.map_map]
    refine rel_append ?_ (.cons (spells_quoteArg ht hvalid) .nil)
    rw [List.forall₂_map_right_iff]
    exact List.forall₂_same.mpr fun w hw => (hwords w hw).spells
  exact lexFrom_line hspells (cons_ne_nil _ _) 0 text

theorem lexemes_argLine (hbom : hasPrefix name bom = false) (text : Str) :
    lexemes (argLine name words t ++ byte '\n' :: text) =
      (lexemes (byte '\n' :: text)).map fun xs =>
        .word name false :: ((lineArgs words t).map Arg.lexeme ++ .newline :: xs) := by
  have hline : (newLexer (argLine name words t ++ byte '\n' :: text)).src =
      argLine name words t ++ byte '\n' :: text := by
    have hhead : ∃ s, argLine name words t ++ byte '\n' :: text = name ++ byte ' ' :: s := by
      cases words with
      | nil | cons w words => exact ⟨_, by simp [argLine, join]; rfl⟩
    have hnot : hasPrefix (argLine name words t ++ byte '\n' :: text) bom = false := by
      obtain ⟨s, hs⟩ := hhead
      rw [hs]
      by_contra hprefix
      have hprefix := hasPrefix_bom_append (by decide) (Bool.not_eq_false _ ▸ hprefix)
      rw [hbom] at hprefix
      cases hprefix
    rw [newLexer, hnot]
    rfl
  have htext : lexemes (byte '\n' :: text) = lexFrom true text := lexFrom_blankLine text
  rw [lexemes_eq_lexFrom, hline, lexFrom_argLine hname hwords ht hvalid, htext]

end

theorem headerAhead_line (args : List Arg) (xs : List Lexeme) :
    headerAhead false (args.map Arg.lexeme ++ .newline :: xs) = false := by
  induction args with
  | nil => rfl
  | cons a args ih => exact ih

theorem startsSiteBlock_line {name : Str} (hlisted : isListed name false = false) (args : List Arg)
    (xs : List Lexeme) :
    startsSiteBlock (.word name false :: (args.map Arg.lexeme ++ .newline :: xs)) = false := by
  simp only [startsSiteBlock, headerAhead, hlisted, Bool.and_false, headerAhead_line]

/-- **A value from outside is one argument, and nothing but that.** A line of plain words and a value
is a directive with the value as its last argument, and what is on the lines behind it is parsed as
without it: in a fragment, in a block at every depth, and in a file, where the first word must not be
an address and a block in front would be the global options. No environment changes the value, if it
passes the guard. -/
theorem quoteArg_safe {name : Str} {words : List Str} {t : Str} (hname : PlainWord name)
    (hdef : isDefName name false = false) (hbom : hasPrefix name bom = false)
    (hwords : ∀ w ∈ words, PlainWord w) (ht : Printable t) (hvalid : toValidRunes 0 t = t)
    (text : Str) :
    parseFragment (argLine name words t ++ byte '\n' :: text) =
        (parseFragment (byte '\n' :: text)).map (argDirective name words t :: ·) ∧
      (∀ depth, parseBlockFrom depth (argLine name words t ++ byte '\n' :: text) =
        (parseBlockFrom depth (byte '\n' :: text)).map fun r =>
          (argDirective name words t :: r.1, r.2)) ∧
      (isListed name false = false → clearlyHostnameShaped name = false →
        (∀ f, parse (byte '\n' :: text) = some f → f.globalOptions = none) →
        parse (argLine name words t ++ byte '\n' :: text) =
          (parse (byte '\n' :: text)).map fun f =>
            ⟨f.globalOptions, f.sites, argDirective name words t :: f.body⟩) ∧
      (containsEnvPlaceholder t = false → ∀ lookup,
        (argDirective name words t).substitute lookup =
          .directive name (words.map (fun w => substituteArg lookup ⟨w, false⟩) ++
            [⟨t, isQuoted t⟩]) none) := by
  have hlexemes := lexemes_argLine hname hwords ht hvalid hbom text
  have hplain (xs : List Lexeme) := plainStatement_directive hdef (lineArgs words t) xs
  refine ⟨?_, fun depth => ?_, fun hlisted hclear hglobal => ?_, fun hguard lookup => ?_⟩
  · rw [parseFragment, parseFragment, hlexemes]
    cases lexemes (byte '\n' :: text) with
    | none => rfl
    | some xs => exact parseFragmentBody_cons (hplain xs)
  · have hline := lexFrom_argLine hname hwords ht hvalid text
    rw [parseBlockFrom, parseBlockFrom, hline, lexFrom_blankLine]
    cases lexFrom true text with
    | none => rfl
    | some xs => exact parseBlockBody_cons (hplain xs) depth
  · rw [parse] at hglobal
    rw [parse, parse, hlexemes]
    cases hxs : lexemes (byte '\n' :: text) with
    | none => rfl
    | some xs =>
      rw [hxs] at hglobal
      refine parseFile_cons (hplain xs) (startsSiteBlock_line hlisted _ _) ?_ hglobal
      simp only [unseparatedAddrWrap, hclear, Bool.and_false, Bool.false_and]
  · simp only [argDirective, Node.substitute, lineArgs, map_append, List.map_map,
      map_cons, substituteArg_quoteArg lookup hguard]
    rfl

def hostile : Str := lit "a\"; \x7d\nrespond 200 \\"

theorem quoteArg_safe_hostile :
    argLine (lit "header") [lit "X-A"] hostile =
        lit "header X-A \"a\\\"; \x7d\nrespond 200 \\\\\"" ∧
      parseFragment (argLine (lit "header") [lit "X-A"] hostile ++
          byte '\n' :: lit "cache 1m\n") =
        some [.directive (lit "header") [⟨lit "X-A", false⟩, ⟨hostile, true⟩] none,
          .directive (lit "cache") [⟨lit "1m", false⟩] none] := by
  have hplain {w : Str} (hw : w = lit "header" ∨ w = lit "X-A") : PlainWord w := by
    obtain rfl | rfl := hw
    · exact ⟨by decide, by decide, by decide⟩
    · exact ⟨by decide, by decide, by decide⟩
  have hwords : ∀ w ∈ [lit "X-A"], PlainWord w := fun w hw => hplain (.inr (mem_singleton.mp hw))
  have hprintable : Printable hostile := by decide
  have hsafe := (quoteArg_safe (hplain (.inl rfl)) (by decide) (by decide) hwords hprintable
    (by decide) (lit "cache 1m\n")).1
  refine ⟨by decide, ?_⟩
  rw [hsafe, show parseFragment (byte '\n' :: lit "cache 1m\n") =
    some [.directive (lit "cache") [⟨lit "1m", false⟩] none] by decide]
  exact congrArg some (cons_eq_cons.mpr ⟨by decide, rfl⟩)

theorem quoteArg_invalid_utf8 :
    (∀ b ∈ ([0xff] : Str), isDisallowedControl b = false) ∧
      parseFragment (argLine (lit "header") [lit "X-A"] [0xff] ++ byte '\n' :: []) =
        some [.directive (lit "header") [⟨lit "X-A", false⟩, ⟨[0xef, 0xbf, 0xbd], false⟩] none] := by
  decide +kernel

/-! ## Texts without placeholders -/

theorem containsEnvPlaceholder_eq_false {w : Str} (h : byte '{' ∉ w ∨ byte '$' ∉ w) :
    containsEnvPlaceholder w = false := by
  have hless {b : UInt8} {w : Str} (h : byte '{' ∉ b :: w ∨ byte '$' ∉ b :: w) :
      byte '{' ∉ w ∨ byte '$' ∉ w :=
    h.imp (fun h hmem => h (mem_cons_of_mem _ hmem)) fun h hmem => h (mem_cons_of_mem _ hmem)
  induction w using containsEnvPlaceholder.induct with
  | case1 c s ih => rw [containsEnvPlaceholder, if_pos rfl, ih (hless (hless h))]
  | case2 b c s hb hdollar =>
    obtain ⟨rfl, rfl⟩ := hdollar
    exact (h.elim (· mem_cons_self) (· (mem_cons_of_mem _ mem_cons_self))).elim
  | case3 b c s hb hdollar ih =>
    rw [containsEnvPlaceholder, if_neg hb, if_neg hdollar, ih (hless h)]
  | case4 w hw =>
    cases w with
    | nil => rfl
    | cons b w =>
      cases w with
      | nil => rfl
      | cons c w => exact (hw b c w rfl).elim

theorem containsEnvPlaceholder_high {u : Str} (hu : ∀ b ∈ u, 0x80 ≤ b) (s : Str) :
    containsEnvPlaceholder (u ++ s) = containsEnvPlaceholder s := by
  induction u with
  | nil => rfl
  | cons b u ih =>
    obtain ⟨hb, hu⟩ := forall_mem_cons.mp hu
    have hescape := ne_of_high (c := byte '\\') hb (by decide)
    have hopen := ne_of_high (c := byte '{') hb (by decide)
    rw [cons_append, containsEnvPlaceholder_cons hescape hopen, ih hu]

theorem containsEnvPlaceholder_sameAscii {s t : Str} (h : SameAscii s t)
    (hs : containsEnvPlaceholder s = false) : containsEnvPlaceholder t = false := by
  induction hlen : s.length using Nat.strongRecOn generalizing s t with
  | ind len ih =>
    subst hlen
    cases h with
    | nil => rfl
    | @high b c u s t hb hu h =>
      rw [containsEnvPlaceholder_high hu]
      refine ih _ (Nat.lt_succ_self _) h ?_ rfl
      rwa [← containsEnvPlaceholder_high (u := [b]) (by simpa using hb)]
    | @ascii b s t hb h =>
      have hrest : containsEnvPlaceholder s = false → containsEnvPlaceholder t = false := fun hs =>
        ih _ (Nat.lt_succ_self _) h hs rfl
      by_cases hescape : b = byte '\\'
      · subst hescape
        cases h with
        | nil => rfl
        | @ascii c s t hc h =>
          rw [containsEnvPlaceholder] at hs ⊢
          exact ih _ (by simp only [length_cons]; omega) h hs rfl
        | @high c d u s t hc hu h =>
          rw [cons_append, containsEnvPlaceholder,
            containsEnvPlaceholder_high fun e he => hu e (mem_cons_of_mem _ he)]
          exact ih _ (by simp only [length_cons]; omega) h hs rfl
      · cases h with
        | nil => rfl
        | @ascii c s t hc h =>
          rw [containsEnvPlaceholder, if_neg hescape] at hs ⊢
          split at hs
          · cases hs
          case isFalse hdollar =>
            rw [if_neg hdollar]
            exact hrest hs
        | @high c d u s t hc hu h =>
          rw [containsEnvPlaceholder, if_neg hescape] at hs
          split at hs
          · cases hs
          case isFalse hdollar =>
            have hd := ne_of_high (c := byte '$') (hu d mem_cons_self) (by decide)
            rw [cons_append, containsEnvPlaceholder, if_neg hescape, if_neg fun h => hd h.2]
            exact hrest hs

theorem containsEnvPlaceholder_append {s t : Str} (hs : containsEnvPlaceholder s = false)
    (ht : byte '$' ∉ t) : containsEnvPlaceholder (s ++ t) = false := by
  have hnone {t : Str} (ht : byte '$' ∉ t) := containsEnvPlaceholder_eq_false (.inr ht)
  induction s using containsEnvPlaceholder.induct with
  | case1 c s ih =>
    exact ih hs
  | case2 b c s hb hdollar =>
    rw [containsEnvPlaceholder, if_neg hb, if_pos hdollar] at hs
    cases hs
  | case3 b c s hb hdollar ih =>
    rw [containsEnvPlaceholder, if_neg hb, if_neg hdollar] at hs
    rw [cons_append, cons_append, containsEnvPlaceholder, if_neg hb, if_neg hdollar]
    exact ih hs
  | case4 s hs' =>
    cases s with
    | nil => exact hnone ht
    | cons b s =>
      cases s with
      | cons c s => exact (hs' b c s rfl).elim
      | nil =>
        -- the last byte of the text may be an escape or an opening brace
        rw [cons_append, nil_append]
        cases t with
        | nil => rfl
        | cons c t =>
          rw [containsEnvPlaceholder]
          split
          · exact hnone fun h => ht (mem_cons_of_mem _ h)
          split
          case isTrue hdollar =>
            obtain ⟨-, rfl⟩ := hdollar
            exact absurd mem_cons_self ht
          case isFalse => exact hnone ht

end Cadishfile

end Cadish
