import Cadish.Cadishfile.Env

/-!
# Sites that a program writes

A controller writes a site as text: a header, a line for each statement, and a closing brace. **The
text is parsed as one site with these statements** (`parse_writtenSite`), as long as each word is
spelled so that it is read back.
-/

namespace Cadish

open List Str

namespace Cadishfile

/-! ## Words -/

def isPlainByte (b : UInt8) : Bool :=
  0x21 ≤ b && b < 0x7f && !(lit "\"#;\\\x7b\x7d").elem b

theorem isPlainByte_spec {b : UInt8} (h : isPlainByte b = true) :
    isBlank b = false ∧ isDisallowedControl b = false ∧ b < 0x80 ∧ b ≠ byte '"' ∧
      b ≠ byte '#' ∧ b ≠ byte ';' ∧ b ≠ byte '\\' ∧ b ≠ byte '{' ∧
      b ≠ byte '}' := by
  have hne {c : UInt8} (hc : isPlainByte c = false) : b ≠ c := by
    rintro rfl
    rw [h] at hc
    cases hc
  have hrange : 0x21 ≤ b ∧ b < 0x7f := by
    simp only [isPlainByte, Bool.and_eq_true, decide_eq_true_eq] at h
    exact h.1
  have hle := UInt8.le_iff_toNat_le.mp hrange.1
  have hlt := UInt8.lt_iff_toNat_lt.mp hrange.2
  refine ⟨?_, ?_, ?_, hne (by decide), hne (by decide), hne (by decide), hne (by decide),
    hne (by decide), hne (by decide)⟩
  · simp [isBlank, hne (show isPlainByte (byte ' ') = false by decide),
      hne (show isPlainByte (byte '\t') = false by decide),
      hne (show isPlainByte (byte '\n') = false by decide),
      hne (show isPlainByte (byte '\r') = false by decide)]
  · have hcontrol : ¬ b < 0x20 := fun hb => by
      have := UInt8.lt_iff_toNat_lt.mp hb
      simp at this hle
      omega
    simp [isDisallowedControl, hcontrol, hne (show isPlainByte 0x7f = false by decide)]
  · rw [UInt8.lt_iff_toNat_lt]
    simp at hlt ⊢
    omega

theorem toValidRunes_plain {w : Str} (h : ∀ b ∈ w, isPlainByte b = true) : toValidRunes 0 w = w := by
  induction w with
  | nil => rfl
  | cons b w ih =>
    obtain ⟨hb, hw⟩ := forall_mem_cons.mp h
    obtain ⟨-, -, hascii, -⟩ := isPlainByte_spec hb
    rw [toValidRunes_ascii hascii, ih hw]

theorem plainWord_of_forall {w : Str} (hne : w ≠ []) (h : ∀ b ∈ w, isPlainByte b = true) :
    PlainWord w where
  bare := by
    refine isBare_of_forall fun b hb => ?_
    obtain ⟨hblank, hcontrol, -, -, -, hsemi, -, hopen, hclose⟩ := isPlainByte_spec (h b hb)
    exact ⟨hblank, hcontrol, hsemi, hopen, hclose⟩
  unquoted := by
    have hlast : w.getLast? ≠ some (byte '\\') := fun hlast =>
      (isPlainByte_spec (h _ (mem_of_getLast? hlast))).2.2.2.2.2.2.1 rfl
    have hhead : w.head? ≠ some (byte '#') := fun hhead =>
      (isPlainByte_spec (h _ (mem_of_head? hhead))).2.2.2.2.1 rfl
    have hall : ∀ b ∈ w, isBlank b = false ∧ b ≠ byte '"' ∧ b ≠ byte ';' := by
      intro b hb
      obtain ⟨hblank, -, -, hquote, -, hsemi, -⟩ := isPlainByte_spec (h b hb)
      exact ⟨hblank, hquote, hsemi⟩
    simpa [needsQuoting, hne, hlast, hhead, and_assoc] using hall
  valid := toValidRunes_plain h

def Arg.text (a : Arg) : Str := if a.quoted then quote a.raw else a.raw

def Arg.Written (a : Arg) : Prop := Spells a.text a.lexeme

def plainArg (w : Str) : Arg := ⟨w, false⟩

def quotedArg (t : Str) : Arg := ⟨t, isQuoted t⟩

theorem plainArg_written {w : Str} (h : PlainWord w) : (plainArg w).Written := h.spells

theorem quotedArg_written {t : Str} (ht : Printable t) (hvalid : toValidRunes 0 t = t) :
    (quotedArg t).Written := spells_quoteArg ht hvalid

/-! ## Rows -/

inductive Row where
  | matcherDef (name type : Str) (args : List Arg)
  | directive (name : Str) (args : List Arg)
  | nested (name : Str) (args : List Arg) (inner : Str) (innerArgs : List Arg)

namespace Row

def node : Row → Node
  | .matcherDef name type args => .matcherDef name type args
  | .directive name args => .directive name args none
  | .nested name args inner innerArgs => .directive name args (some [.directive inner innerArgs none])

def words : Row → List Str
  | .matcherDef name type args => (lit "@" ++ name) :: type :: args.map Arg.text
  | .directive name args => name :: args.map Arg.text
  | .nested name args inner innerArgs =>
    name :: (args.map Arg.text ++ lit "\x7b" :: inner :: (innerArgs.map Arg.text ++ [lit "\x7d"]))

def lexemes : Row → List Lexeme
  | .matcherDef name type args =>
    .word (lit "@" ++ name) false :: .word type false :: args.map Arg.lexeme
  | .directive name args => .word name false :: args.map Arg.lexeme
  | .nested name args inner innerArgs =>
    .word name false :: (args.map Arg.lexeme ++ .openBrace :: .word inner false ::
      (innerArgs.map Arg.lexeme ++ [.closeBrace]))

/-- Every word of the row is read back, and the row is the statement that it is meant to be. -/
def Written : Row → Prop
  | .matcherDef name type args => PlainWord (lit "@" ++ name) ∧ name ≠ [] ∧ PlainWord type ∧
      badType type false = false ∧ ∀ a ∈ args, a.Written
  | .directive name args => PlainWord name ∧ isDefName name false = false ∧ ∀ a ∈ args, a.Written
  | .nested name args inner innerArgs =>
      (PlainWord name ∧ isDefName name false = false ∧ ∀ a ∈ args, a.Written) ∧
      PlainWord inner ∧ isDefName inner false = false ∧ ∀ a ∈ innerArgs, a.Written

/-- The row is the statement that it is meant to be, if its words are read as they are meant. -/
def Formed : Row → Prop
  | .matcherDef name type _ => name ≠ [] ∧ badType type false = false
  | .directive name _ => isDefName name false = false
  | .nested name _ inner _ => isDefName name false = false ∧ isDefName inner false = false

variable {r : Row}

theorem Written.formed (h : r.Written) : r.Formed := by
  cases r with
  | matcherDef name type args =>
    obtain ⟨-, hname, -, htype, -⟩ := h
    exact ⟨hname, htype⟩
  | directive name args => exact h.2.1
  | nested name args inner innerArgs => exact ⟨h.1.2.1, h.2.2.1⟩

theorem spells_args {args : List Arg} (h : ∀ a ∈ args, a.Written) :
    List.Forall₂ Spells (args.map Arg.text) (args.map Arg.lexeme) := by
  rw [List.forall₂_map_left_iff, List.forall₂_map_right_iff]
  exact List.forall₂_same.mpr h

theorem Written.spells (h : r.Written) : List.Forall₂ Spells r.words r.lexemes := by
  cases r with
  | matcherDef name type args =>
    obtain ⟨hname, -, htype, -, hargs⟩ := h
    exact .cons hname.spells (.cons htype.spells (spells_args hargs))
  | directive name args =>
    obtain ⟨hname, -, hargs⟩ := h
    exact .cons hname.spells (spells_args hargs)
  | nested name args inner innerArgs =>
    obtain ⟨⟨hname, -, hargs⟩, hinner, -, hinnerArgs⟩ := h
    refine .cons hname.spells (rel_append (spells_args hargs) ?_)
    refine .cons spells_openBrace (.cons hinner.spells ?_)
    exact rel_append (spells_args hinnerArgs) (.cons spells_closeBrace .nil)

/-! ## Parsing -/

section

variable {rest : List Lexeme}

theorem plainStatement_matcherDef {name type : Str} (hname : name ≠ [])
    (htype : badType type false = false) (args : List Arg) :
    plainStatement (.word (lit "@" ++ name) false :: .word type false ::
        (args.map Arg.lexeme ++ .newline :: rest)) = some (.matcherDef name type args, rest) := by
  have hempty : ((lit "@" ++ name).drop 1).isEmpty = false := by
    cases name with
    | nil => exact absurd rfl hname
    | cons b name => rfl
  exact plainStatement_iff.mpr ⟨_, [.newline], .matcherDef rfl (by rw [hempty, htype]; rfl),
    .separator rfl, rfl⟩

theorem Formed.block (h : r.Formed) {body : List Node} {left : List Lexeme}
    (hrest : Block 1 rest body left) :
    Block 1 (r.lexemes ++ .newline :: rest) (r.node :: body) left := by
  have hdepth : 1 ≤ maxBlockDepth := by decide
  cases r with
  | matcherDef name type args =>
    obtain ⟨hname, htype⟩ := h
    exact .plain hdepth (plainStatement_matcherDef hname htype args) hrest
  | directive name args => exact .plain hdepth (plainStatement_directive h args rest) hrest
  | nested name args inner innerArgs =>
    obtain ⟨hname, hinner⟩ := h
    have hstatement : plainStatement (.word inner false ::
        (innerArgs.map Arg.lexeme ++ .closeBrace :: .newline :: rest)) =
        some (.directive inner innerArgs none, .closeBrace :: .newline :: rest) :=
      plainStatement_iff.mpr ⟨_, [], .directive hinner, .closing (.inl rfl), rfl⟩
    have hlexemes : (Row.nested name args inner innerArgs).lexemes ++ .newline :: rest =
        .word name false :: (args.map Arg.lexeme ++ .openBrace :: .word inner false ::
          (innerArgs.map Arg.lexeme ++ .closeBrace :: .newline :: rest)) := by
      simp [lexemes]
    rw [hlexemes]
    exact .nested hdepth (opensBlock_iff.mpr ⟨false, hname, rfl⟩)
      (.plain (by decide) hstatement (.close (by decide) rfl)) rfl hrest

end

end Row

/-! ## Sites -/

def writtenLines (host : Str) (lines : List (List Str)) : Str :=
  host ++ lit " \x7b\n" ++ lines.flatMap (fun ws => lit "\t" ++ join (lit " ") ws ++ lit "\n") ++
    lit "\x7d\n"

def writtenSite (host : Str) (rows : List Row) : Str := writtenLines host (rows.map Row.words)

structure ReadsAs (ws : List Str) (r : Row) : Prop where
  spells : List.Forall₂ Spells ws r.lexemes
  formed : r.Formed

theorem Row.Written.readsAs {r : Row} (h : r.Written) : ReadsAs r.words r := ⟨h.spells, h.formed⟩

theorem Row.lexemes_ne_nil (r : Row) : r.lexemes ≠ [] := by
  cases r <;> exact cons_ne_nil _ _

theorem ReadsAs.lexFrom {ws : List Str} {r : Row} (h : ReadsAs ws r) (s : Str) :
    lexFrom true (lit "\t" ++ join (lit " ") ws ++ lit "\n" ++ s) =
      (lexFrom true s).map fun ys => r.lexemes ++ .newline :: ys := by
  have htab (u : Str) : Cadishfile.lexFrom true (byte '\t' :: u) = Cadishfile.lexFrom true u :=
    @lexFrom_of_next ⟨byte '\t' :: u, 1, 0, true⟩ ⟨u, 1, 0, true⟩ rfl
  have hne : ws ≠ [] := by
    rintro rfl
    exact r.lexemes_ne_nil (List.forall₂_nil_left_iff.mp h.spells)
  rw [append_assoc]
  exact (htab _).trans (lexFrom_line h.spells hne 0 s)

structure PlainAddress (host : Str) : Prop where
  ne_nil : host ≠ []
  plain : ∀ b ∈ host, isPlainByte b = true
  single : byte ',' ∉ host
  notDef : isDefName host false = false

def bodyLexemes (rows : List Row) : List Lexeme :=
  rows.flatMap (fun r => r.lexemes ++ [.newline]) ++ [.closeBrace, .newline, .eof]

section

variable {host : Str} {lines : List (List Str)} {rows : List Row}
  (hrows : List.Forall₂ ReadsAs lines rows)

include hrows

theorem lexFrom_lines : lexFrom true (lines.flatMap (fun ws => lit "\t" ++ join (lit " ") ws ++
    lit "\n") ++ lit "\x7d\n") = some (bodyLexemes rows) := by
  induction hrows with
  | nil => decide
  | cons hr _ ih =>
    rw [flatMap_cons, append_assoc, hr.lexFrom, ih, bodyLexemes,
      bodyLexemes, flatMap_cons, append_assoc, append_assoc]
    rfl

theorem block_rows : Block 1 (bodyLexemes rows) (rows.map Row.node) [.newline, .eof] := by
  induction hrows with
  | nil => exact .close (by decide) rfl
  | cons hr _ ih =>
    rw [bodyLexemes, flatMap_cons, append_assoc, append_assoc]
    exact hr.formed.block ih

theorem parse_writtenLines (hhost : PlainAddress host) :
    parse (writtenLines host lines) = some ⟨none, [⟨[host], rows.map Row.node⟩], []⟩ := by
  have hword := plainWord_of_forall hhost.ne_nil hhost.plain
  have hlex : lexemes (writtenLines host lines) =
      some (.word host false :: .openBrace :: .newline :: bodyLexemes rows) := by
    have hwritten : writtenLines host lines = host ++ byte ' ' :: byte '{' ::
        byte '\n' :: (lines.flatMap (fun ws => lit "\t" ++ join (lit " ") ws ++ lit "\n") ++
          lit "\x7d\n") := by
      simp only [writtenLines, append_assoc]
      rfl
    have hbom : hasPrefix (writtenLines host lines) bom = false := by
      by_contra hbom
      rw [hwritten] at hbom
      have hbom := hasPrefix_bom_append (by decide) (Bool.not_eq_false _ ▸ hbom)
      obtain ⟨t, rfl⟩ := isPrefixOf_iff_prefix.mp hbom
      exact absurd (hhost.plain 0xef (by simp [bom])) (by decide)
    have hsrc : (newLexer (writtenLines host lines)).src = writtenLines host lines := by
      rw [newLexer, hbom]
      rfl
    have hspace : isBlank (byte ' ') = true := rfl
    have hnewline : isBlank (byte '\n') = true := rfl
    rw [lexemes_eq_lexFrom, hsrc, hwritten, hword.spells true _ (blankHead_cons hspace),
      lexFrom_space, lexFrom_openBrace (closes_of_blank _ hnewline 1), lexFrom_newline,
      lexFrom_lines hrows]
    rfl
  have hheader : siteHeader (.word host false :: .openBrace :: .newline :: bodyLexemes rows) =
      some ([host], .newline :: bodyLexemes rows) := by
    simp only [siteHeader, splitAddressToken, Option.map_some, append_nil]
    rw [if_neg (by simpa using hhost.single)]
  have hstarts : startsSiteBlock
      (.word host false :: .openBrace :: .newline :: bodyLexemes rows) = true := by
    simp only [startsSiteBlock, hhost.notDef, Bool.not_false, Bool.true_and, headerAhead]
  have htop : Top (.word host false :: .openBrace :: .newline :: bodyLexemes rows)
      [⟨[host], rows.map Row.node⟩] [] :=
    .site hstarts hheader (cons_ne_nil _ _) ((block_rows hrows).congr rfl) (.eof rfl)
  have hopen (ys : List Lexeme) : skipSeparators
      (.word host false :: .openBrace :: .newline :: bodyLexemes rows) ≠ .openBrace :: ys := by
    intro h
    cases h
  rw [parse, hlex, Option.bind_some]
  exact parseFile_eq_some.mpr (.inr ⟨hopen, rfl, htop⟩)

end

theorem parse_writtenSite {host : Str} {rows : List Row} (hrows : ∀ r ∈ rows, r.Written)
    (hhost : PlainAddress host) :
    parse (writtenSite host rows) = some ⟨none, [⟨[host], rows.map Row.node⟩], []⟩ := by
  refine parse_writtenLines ?_ hhost
  rw [List.forall₂_map_left_iff]
  exact List.forall₂_same.mpr fun r hr => (hrows r hr).readsAs

/-! ## Environments -/

/-- No argument of the row has a placeholder for an environment variable. -/
def Row.Guarded : Row → Prop
  | .matcherDef _ _ args => ∀ a ∈ args, containsEnvPlaceholder a.raw = false
  | .directive _ args => ∀ a ∈ args, containsEnvPlaceholder a.raw = false
  | .nested _ args _ innerArgs => (∀ a ∈ args, containsEnvPlaceholder a.raw = false) ∧
      ∀ a ∈ innerArgs, containsEnvPlaceholder a.raw = false

theorem substituteArg_guarded (lookup : Environment) {a : Arg}
    (h : containsEnvPlaceholder a.raw = false) : substituteArg lookup a = a := by
  have hexpand : expandEnv lookup a.raw = a.raw := expandFrom_of_guard lookup (Nat.le_refl _) h
  unfold substituteArg
  rw [hexpand]
  split
  · rfl
  · split
    · rfl
    · rfl

theorem map_substituteArg_guarded (lookup : Environment) {args : List Arg}
    (h : ∀ a ∈ args, containsEnvPlaceholder a.raw = false) :
    args.map (substituteArg lookup) = args := by
  rw [map_congr_left fun a ha => substituteArg_guarded lookup (h a ha), List.map_id']

theorem Row.Guarded.substitute {r : Row} (h : r.Guarded) (lookup : Environment) :
    r.node.substitute lookup = r.node := by
  cases r with
  | matcherDef name type args =>
    simp only [node, Node.substitute, map_substituteArg_guarded lookup h]
  | directive name args => simp only [node, Node.substitute, map_substituteArg_guarded lookup h]
  | nested name args inner innerArgs =>
    simp only [node, Node.substitute, substituteNodes, map_substituteArg_guarded lookup h.1,
      map_substituteArg_guarded lookup h.2]

theorem substituteNodes_rows {rows : List Row} (h : ∀ r ∈ rows, r.Guarded) (lookup : Environment) :
    substituteNodes lookup (rows.map Row.node) = rows.map Row.node := by
  induction rows with
  | nil => rfl
  | cons r rows ih =>
    obtain ⟨hr, hrows⟩ := forall_mem_cons.mp h
    rw [map_cons, substituteNodes, hr.substitute lookup, ih hrows]

end Cadishfile

end Cadish
