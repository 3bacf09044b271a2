import Cadish.Cadishfile.Quote

/-!
# Parsing a Cadishfile

A file is a list of site blocks and statements, told apart by a look ahead over the words in front
of the next brace. The loops go by a number of turns that is one more than the number of lexemes,
and that is enough (`parseBlockBody_eq_some`): what the parser accepts is told by `Block`. Errors
are reduced to the fact that there is one.
-/

namespace Cadish

open List Option Str Nat

namespace Cadishfile

variable {n : Node} {body : List Node} {depth fuel : Nat}

/-! ## Statements -/

def maxBlockDepth : Nat := 1000

def skipSeparators : List Lexeme → List Lexeme
  | .newline :: xs => skipSeparators xs
  | .semicolon :: xs => skipSeparators xs
  | .comment _ :: xs => skipSeparators xs
  | xs => xs

def parseArgs : List Lexeme → List Arg × List Lexeme
  | .word text quoted :: xs =>
    let r := parseArgs xs
    (⟨text, quoted⟩ :: r.1, r.2)
  | xs => ([], xs)

def expectStatementEnd : List Lexeme → Option (List Lexeme)
  | .newline :: xs => some xs
  | .semicolon :: xs => some xs
  | .comment _ :: xs => some xs
  | .closeBrace :: xs => some (.closeBrace :: xs)
  | .eof :: xs => some (.eof :: xs)
  | _ => none

variable (text : Str)

variable (block : BlockParser) (src : Str) (quoted : Bool)

def isDefName : Bool := !quoted && hasPrefix text (lit "@")

def badType (type : Str) (quoted : Bool) : Bool :=
  quoted || hasPrefix type (lit "@") || containsPlaceholder type || needsQuoting type

/-- `parseMatcherDef`, behind the name. A block is refused, as it does not end the statement. -/
def parseMatcherDef : List Lexeme → Option (Node × List Lexeme)
  | .word type quoted :: xs =>
    if (text.drop 1).isEmpty || badType type quoted then none
    else (expectStatementEnd (parseArgs xs).2).map fun rest =>
      (.matcherDef (text.drop 1) type (parseArgs xs).1, rest)
  | _ => none

/-- What is parsed of a block behind its brace: its statements, and what is left. -/
abbrev BlockParser := List Lexeme → Option (List Node × List Lexeme)

def parseDirective (name : Str) (xs : List Lexeme) : Option (Node × List Lexeme) :=
  match (parseArgs xs).2 with
  | .openBrace :: ys =>
    (block ys).bind fun r => (expectStatementEnd r.2).map fun rest =>
      (.directive name (parseArgs xs).1 (some r.1), rest)
  | ys => (expectStatementEnd ys).map fun rest => (.directive name (parseArgs xs).1 none, rest)

def parseStatement : List Lexeme → Option (Node × List Lexeme)
  | .word text quoted :: xs =>
    if isDefName text quoted then parseMatcherDef text xs else parseDirective block text xs
  | _ => none

def parseBlockBody : Nat → Nat → BlockParser
  | 0, _, _ => none
  | fuel + 1, depth, xs =>
    if maxBlockDepth < depth then none
    else
      match skipSeparators xs with
      | .closeBrace :: rest => some ([], rest)
      | ys =>
        (parseStatement (parseBlockBody fuel (depth + 1)) ys).bind fun r =>
          (parseBlockBody fuel depth r.2).map fun r' => (r.1 :: r'.1, r'.2)

def parseFragmentBody : Nat → List Lexeme → Option (List Node)
  | 0, _ => none
  | fuel + 1, xs =>
    match skipSeparators xs with
    | .eof :: _ => some []
    | ys =>
      (parseStatement (parseBlockBody fuel 1) ys).bind fun r =>
        (parseFragmentBody fuel r.2).map fun body => r.1 :: body

def parseFragment : Option (List Node) :=
  (lexemes src).bind fun xs => parseFragmentBody (xs.length + 1) xs

/-! ## Addresses -/

def trimComma : Str := if hasSuffix text (lit ",") then text.dropLast else text

def afterScheme : Str → Option Str
  | [] => none
  | b :: s => if hasPrefix (b :: s) (lit "://") then some (s.drop 2) else afterScheme s

def isPort : Bool :=
  !text.isEmpty && text.all fun b => byte '0' ≤ b && b ≤ byte '9'

def isHostByte (b : UInt8) : Bool :=
  (byte 'a' ≤ b && b ≤ byte 'z') || (byte 'A' ≤ b && b ≤ byte 'Z') ||
    (byte '0' ≤ b && b ≤ byte '9') || b == byte '.' || b == byte '-' ||
    b == byte '_'

def trimPort : Str :=
  if text.elem (byte ':') then (text.reverse.dropWhile (· != byte ':')).tail.reverse
  else text

/-- The host in an address: without its scheme, its path, and a wildcard in front. -/
def addressHost : Str :=
  let text := (afterScheme text).getD text
  let text := text.takeWhile fun b =>
    b != byte '/' && b != byte '?' && b != byte '#'
  if hasPrefix text (lit "*.") then text.drop 2 else text

def isAddressToken : Bool :=
  let text := trimComma text
  if text.isEmpty then true
  else if hasPrefix text (lit ":") then isPort (text.drop 1)
  else
    let host := addressHost text
    if host.isEmpty then false
    else if hasPrefix host (lit "[") then host.elem (byte ']')
    else !(trimPort host).isEmpty && (trimPort host).all isHostByte

def neverDirectiveShaped : Bool :=
  (afterScheme text).isSome || hasPrefix text (lit "[") ||
    (hasPrefix text (lit ":") && isPort (text.drop 1))

def clearlyHostnameShaped : Bool :=
  let text := trimComma text
  neverDirectiveShaped text ||
    (isAddressToken text &&
      (text.elem (byte '.') || text == lit "localhost" || text.elem (byte ':')))

def splitAddressToken : List Str :=
  if text.elem (byte ',') then
    ((split (byte ',') text).map trimSpace).filter fun part => !part.isEmpty
  else [text]

/-! ## Sites -/

/-- A word of an address list that may go on over the end of the line. -/
def isListed : Bool :=
  !quoted && isAddressToken text && hasSuffix text (lit ",")

/-- The loop of `startsSiteBlock`: whether a brace comes first, if a line end may be crossed while
all words are listed. -/
def headerAhead (addrList : Bool) : List Lexeme → Bool
  | .openBrace :: _ => true
  | .word text quoted :: xs => headerAhead (addrList && isListed text quoted) xs
  | .comment _ :: xs => headerAhead addrList xs
  | .newline :: xs => addrList && headerAhead addrList xs
  | _ => false

def startsSiteBlock : List Lexeme → Bool
  | .word text quoted :: xs => !isDefName text quoted && headerAhead true (.word text quoted :: xs)
  | xs => headerAhead true xs

/-- The loop of `unseparatedAddrWrap`: nothing but addresses up to a brace, two of them that can be
nothing else, and a separator on the way. -/
def wrapAhead (clear : Nat) (sawSep : Bool) : List Lexeme → Bool
  | .word text quoted :: xs =>
    !quoted && isAddressToken text &&
      wrapAhead (if clearlyHostnameShaped text then clear + 1 else clear) sawSep xs
  | .newline :: xs => wrapAhead clear true xs
  | .semicolon :: xs => wrapAhead clear true xs
  | .comment _ :: xs => wrapAhead clear sawSep xs
  | .openBrace :: _ => sawSep && 2 ≤ clear
  | _ => false

def unseparatedAddrWrap : List Lexeme → Bool
  | .word text quoted :: xs =>
    !quoted && !hasPrefix text (lit "@") && clearlyHostnameShaped text &&
      wrapAhead 0 false (.word text quoted :: xs)
  | _ => false

/-- The loop of `parseSite`: the addresses, and what is behind the brace. -/
def siteHeader : List Lexeme → Option (List Str × List Lexeme)
  | .openBrace :: xs => some ([], xs)
  | .word text _ :: xs => (siteHeader xs).map fun r => (splitAddressToken text ++ r.1, r.2)
  | .newline :: xs => siteHeader xs
  | .comment _ :: xs => siteHeader xs
  | _ => none

def parseSite (fuel : Nat) (xs : List Lexeme) : Option (Site × List Lexeme) :=
  (siteHeader xs).bind fun h =>
    if h.1.isEmpty then none
    else (parseBlockBody fuel 1 h.2).map fun r => (⟨h.1, r.1⟩, r.2)

/-! ## Files -/

structure File where
  globalOptions : Option (List Node)
  sites : List Site
  body : List Node
deriving DecidableEq

def parseTop : Nat → List Lexeme → Option (List Site × List Node)
  | 0, _ => none
  | fuel + 1, xs =>
    match skipSeparators xs with
    | .eof :: _ => some ([], [])
    | .closeBrace :: _ => none
    | ys =>
      if startsSiteBlock ys then
        (parseSite fuel ys).bind fun r =>
          (parseTop fuel r.2).map fun r' => (r.1 :: r'.1, r'.2)
      else if unseparatedAddrWrap ys then none
      else
        (parseStatement (parseBlockBody fuel 1) ys).bind fun r =>
          (parseTop fuel r.2).map fun r' => (r'.1, r.1 :: r'.2)

/-- `parseFile`. A block in front of everything else is the global options. -/
def parseFile (xs : List Lexeme) : Option File :=
  match skipSeparators xs with
  | .openBrace :: ys =>
    (parseBlockBody (ys.length + 1) 1 ys).bind fun r =>
      (parseTop (r.2.length + 1) r.2).map fun r' => ⟨some r.1, r'.1, r'.2⟩
  | ys => (parseTop (ys.length + 1) ys).map fun r => ⟨none, r.1, r.2⟩

def parse : Option File := (lexemes src).bind parseFile

/-! ## What is left -/

variable {block : BlockParser}

theorem skipSeparators_length (xs : List Lexeme) : (skipSeparators xs).length ≤ xs.length := by
  fun_induction skipSeparators xs with
  | case1 xs ih | case2 xs ih | case3 _ xs ih => exact le_succ_of_le ih
  | case4 xs => exact le_refl _

theorem skipSeparators_idem (xs : List Lexeme) :
    skipSeparators (skipSeparators xs) = skipSeparators xs := by
  fun_induction skipSeparators xs with
  | case1 xs ih | case2 xs ih | case3 _ xs ih => exact ih
  | case4 xs hnewline hsemicolon hcomment =>
    unfold skipSeparators
    split
    case h_1 xs => exact absurd rfl (hnewline xs)
    case h_2 xs => exact absurd rfl (hsemicolon xs)
    case h_3 c xs => exact absurd rfl (hcomment c xs)
    case h_4 => rfl

def Lexeme.isSeparator : Lexeme → Bool
  | .newline | .semicolon | .comment _ => true
  | _ => false

variable {rest xs : List Lexeme}

variable {ys : List Lexeme}

def closing (ys : List Lexeme) : Prop := ys.head? = some .closeBrace ∨ ys.head? = some .eof

inductive StatementEnd : List Lexeme → List Lexeme → Prop
  | separator {x : Lexeme} {ys : List Lexeme} (h : x.isSeparator = true) : StatementEnd [x] ys
  | closing {ys : List Lexeme} (h : closing ys) : StatementEnd [] ys

theorem expectStatementEnd_iff :
    expectStatementEnd xs = some ys ↔ ∃ e, xs = e ++ ys ∧ StatementEnd e ys := by
  constructor
  · intro h
    cases xs with
    | nil => cases h
    | cons x xs =>
      cases x with
      | word | openBrace => cases h
      | newline | semicolon | comment =>
        cases h
        exact ⟨[_], rfl, .separator rfl⟩
      | closeBrace =>
        cases h
        exact ⟨[], rfl, .closing (.inl rfl)⟩
      | eof =>
        cases h
        exact ⟨[], rfl, .closing (.inr rfl)⟩
  · rintro ⟨e, rfl, h⟩
    cases h with
    | @separator x ys h => cases x <;> cases h <;> rfl
    | closing h =>
      cases ys with
      | nil => simp [closing] at h
      | cons y ys => rcases h with h | h <;> cases h <;> rfl

theorem expectStatementEnd_length (h : expectStatementEnd xs = some ys) : ys.length ≤ xs.length := by
  obtain ⟨e, rfl, -⟩ := expectStatementEnd_iff.mp h
  rw [length_append]
  exact le_add_left _ _

theorem StatementEnd.head {e : List Lexeme} (h : StatementEnd e ys) :
    (∀ text quoted, (e ++ ys).head? ≠ some (.word text quoted)) ∧ (e ++ ys).head? ≠ some .openBrace := by
  cases h with
  | @separator x ys h =>
    cases x with
    | newline | semicolon | comment => simp
    | word | openBrace | closeBrace | eof => cases h
  | closing h =>
    rcases h with h | h <;> simp [h]

def Arg.lexeme (a : Arg) : Lexeme := .word a.raw a.quoted

theorem parseArgs_lexemes (args : List Arg) (xs : List Lexeme)
    (hxs : ∀ text quoted, xs.head? ≠ some (.word text quoted)) :
    parseArgs (args.map Arg.lexeme ++ xs) = (args, xs) := by
  induction args with
  | nil =>
    rw [map_nil, nil_append]
    unfold parseArgs
    split
    case h_1 text quoted xs => exact absurd rfl (hxs text quoted)
    case h_2 => rfl
  | cons a args ih =>
    rw [map_cons, cons_append, Arg.lexeme]
    simp only [parseArgs, ih]

theorem parseArgs_append (xs : List Lexeme) : (parseArgs xs).1.map Arg.lexeme ++ (parseArgs xs).2 = xs := by
  fun_induction parseArgs xs with
  | case1 text quoted xs r ih => exact congrArg (Lexeme.word text quoted :: ·) ih
  | case2 xs => rfl

/-- The statement goes up to the brace of its block. -/
def OpensBlock (xs : List Lexeme) (name : Str) (args : List Arg) (ys : List Lexeme) : Prop :=
  ∃ quoted zs, xs = .word name quoted :: zs ∧ isDefName name quoted = false ∧
    parseArgs zs = (args, .openBrace :: ys)

/-- A statement without a block: what is parsed if there is no parser for blocks. -/
def plainStatement (xs : List Lexeme) : Option (Node × List Lexeme) :=
  parseStatement (fun _ => none) xs

theorem parseDirective_eq_some {name : Str} :
    parseDirective block name xs = some (n, rest) ↔
      parseDirective (fun _ => none) name xs = some (n, rest) ∨
        ∃ ys body zs, (parseArgs xs).2 = .openBrace :: ys ∧ block ys = some (body, zs) ∧
          expectStatementEnd zs = some rest ∧
          n = .directive name (parseArgs xs).1 (some body) := by
  unfold parseDirective
  split
  case h_1 ys hargs =>
    constructor
    · intro h
      obtain ⟨⟨body, zs⟩, hblock, h⟩ := bind_eq_some_iff.mp h
      obtain ⟨rest', hend, h⟩ := map_eq_some_iff.mp h
      cases h
      exact .inr ⟨ys, body, zs, hargs, hblock, hend, rfl⟩
    · rintro (h | ⟨ys', body, zs, hargs', hblock, hend, rfl⟩)
      · cases h
      · rw [hargs] at hargs'
        obtain ⟨-, rfl⟩ := hargs'
        rw [hblock, bind_some, hend]
        rfl
  case h_2 ys hargs =>
    constructor
    · exact .inl
    · rintro (h | ⟨ys', body, zs, hargs', -⟩)
      · exact h
      · exact absurd hargs' (hargs ys')

theorem parseStatement_eq_some :
    parseStatement block xs = some (n, rest) ↔
      plainStatement xs = some (n, rest) ∨
        ∃ name args ys body zs, OpensBlock xs name args ys ∧ block ys = some (body, zs) ∧
          expectStatementEnd zs = some rest ∧ n = .directive name args (some body) := by
  unfold plainStatement parseStatement
  split
  case h_1 text quoted xs =>
    by_cases hdef : isDefName text quoted = true
    · simp only [if_pos hdef]
      constructor
      · exact .inl
      · rintro (h | ⟨name, args, ys, body, zs, ⟨quoted', us, hxs, hname, -⟩, -⟩)
        · exact h
        · cases hxs
          rw [hdef] at hname
          cases hname
    · simp only [if_neg hdef]
      rw [parseDirective_eq_some]
      refine or_congr_right ⟨?_, ?_⟩
      · rintro ⟨ys, body, zs, hargs, hblock, hend, rfl⟩
        exact ⟨text, (parseArgs xs).1, ys, body, zs,
          ⟨quoted, xs, rfl, Bool.eq_false_iff.mpr hdef, Prod.ext rfl hargs⟩, hblock, hend, rfl⟩
      · rintro ⟨name, args, ys, body, zs, ⟨quoted', us, hxs, -, hargs⟩, hblock, hend, rfl⟩
        cases hxs
        rw [hargs]
        exact ⟨ys, body, zs, rfl, hblock, hend, rfl⟩
  case h_2 hword =>
    constructor
    · intro h
      cases h
    · rintro (h | ⟨name, args, ys, body, zs, ⟨quoted, us, hxs, -⟩, -⟩)
      · cases h
      · exact absurd hxs (hword name quoted us)

theorem opensBlock_iff {name : Str} {args : List Arg} : OpensBlock xs name args ys ↔
    ∃ quoted, isDefName name quoted = false ∧
      xs = .word name quoted :: (args.map Arg.lexeme ++ .openBrace :: ys) := by
  constructor
  · rintro ⟨quoted, zs, rfl, hdef, hargs⟩
    have hzs := parseArgs_append zs
    rw [hargs] at hzs
    exact ⟨quoted, hdef, by rw [← hzs]⟩
  · rintro ⟨quoted, hdef, rfl⟩
    exact ⟨quoted, _, rfl, hdef, parseArgs_lexemes args _ fun _ _ h => by cases h⟩

theorem OpensBlock.length_lt {name : Str} {args : List Arg} (h : OpensBlock xs name args ys) :
    ys.length < xs.length := by
  obtain ⟨quoted, -, rfl⟩ := opensBlock_iff.mp h
  simp only [length_cons, length_append]
  omega

inductive PlainWords : List Lexeme → Node → Prop
  | matcherDef {text type : Str} {quoted quoted' : Bool} {args : List Arg}
    (hdef : isDefName text quoted = true) (hok : ((text.drop 1).isEmpty || badType type quoted') = false) :
    PlainWords (.word text quoted :: .word type quoted' :: args.map Arg.lexeme)
      (.matcherDef (text.drop 1) type args)
  | directive {name : Str} {quoted : Bool} {args : List Arg} (hdef : isDefName name quoted = false) :
    PlainWords (.word name quoted :: args.map Arg.lexeme) (.directive name args none)

theorem plainStatement_iff :
    plainStatement xs = some (n, ys) ↔
      ∃ q e, PlainWords q n ∧ StatementEnd e ys ∧ xs = q ++ (e ++ ys) := by
  constructor
  · intro h
    unfold plainStatement parseStatement at h
    split at h
    case h_2 => cases h
    case h_1 text quoted xs =>
      split at h
      next hdef =>
        unfold parseMatcherDef at h
        split at h
        case h_2 => cases h
        case h_1 type quoted' xs =>
          obtain ⟨hok, h⟩ := ite_none_left_eq_some.mp h
          obtain ⟨rest, hend, heq⟩ := map_eq_some_iff.mp h
          cases heq
          obtain ⟨e, hargs, he⟩ := expectStatementEnd_iff.mp hend
          refine ⟨_, e, .matcherDef hdef (Bool.eq_false_iff.mpr hok), he, ?_⟩
          rw [← hargs, cons_append, cons_append, parseArgs_append]
      next hdef =>
        unfold parseDirective at h
        split at h
        case h_1 => cases h
        case h_2 hopen =>
          obtain ⟨rest, hend, heq⟩ := map_eq_some_iff.mp h
          cases heq
          obtain ⟨e, hargs, he⟩ := expectStatementEnd_iff.mp hend
          refine ⟨_, e, .directive (Bool.eq_false_iff.mpr hdef), he, ?_⟩
          rw [← hargs, cons_append, parseArgs_append]
  · rintro ⟨q, e, hq, he, rfl⟩
    have hend : expectStatementEnd (e ++ ys) = some ys := expectStatementEnd_iff.mpr ⟨e, rfl, he⟩
    obtain ⟨hword, hopen⟩ := he.head
    unfold plainStatement
    cases hq with
    | @matcherDef text type quoted quoted' args hdef hok =>
      have hargs := parseArgs_lexemes args (e ++ ys) hword
      simp only [cons_append, parseStatement, hdef, if_true, parseMatcherDef, hok, hargs, hend,
        Bool.false_eq_true, if_false, map_some]
    | @directive name quoted args hdef =>
      have hargs := parseArgs_lexemes args (e ++ ys) hword
      simp only [cons_append, parseStatement, hdef, Bool.false_eq_true, if_false, parseDirective, hargs]
      split
      next zs heq => exact absurd (congrArg head? heq) hopen
      next => rw [hend, map_some]

theorem plainStatement_length (h : plainStatement xs = some (n, ys)) : ys.length < xs.length := by
  obtain ⟨q, e, hq, -, rfl⟩ := plainStatement_iff.mp h
  cases hq <;> simp only [length_cons, length_append] <;> omega

/-! ## What is accepted -/

/-- The statements of a block up to its closing brace, and what is left behind it. -/
inductive Block : Nat → List Lexeme → List Node → List Lexeme → Prop
  | close {depth : Nat} {xs rest : List Lexeme} (hdepth : depth ≤ maxBlockDepth)
    (h : skipSeparators xs = .closeBrace :: rest) : Block depth xs [] rest
  | plain {depth : Nat} {xs ys rest : List Lexeme} {n : Node} {body : List Node}
    (hdepth : depth ≤ maxBlockDepth) (h : plainStatement (skipSeparators xs) = some (n, ys))
    (hrest : Block depth ys body rest) : Block depth xs (n :: body) rest
  | nested {depth : Nat} {xs ys zs us rest : List Lexeme} {name : Str} {args : List Arg}
    {inner body : List Node} (hdepth : depth ≤ maxBlockDepth)
    (h : OpensBlock (skipSeparators xs) name args ys) (hblock : Block (depth + 1) ys inner zs)
    (hend : expectStatementEnd zs = some us) (hrest : Block depth us body rest) :
    Block depth xs (.directive name args (some inner) :: body) rest

theorem Block.congr (h : Block depth xs body rest) (hskip : skipSeparators ys = skipSeparators xs) :
    Block depth ys body rest := by
  cases h with
  | close hdepth h => exact .close hdepth (hskip.trans h)
  | plain hdepth h hrest => exact .plain hdepth (hskip ▸ h) hrest
  | nested hdepth h hblock hend hrest => exact .nested hdepth (hskip ▸ h) hblock hend hrest

theorem Block.length_lt (h : Block depth xs body rest) : rest.length < xs.length := by
  induction h with
  | @close depth xs rest hdepth h =>
    have hle := skipSeparators_length xs
    rw [h, length_cons] at hle
    omega
  | @plain depth xs ys rest n body hdepth h hrest ih =>
    have hle := skipSeparators_length xs
    have hlt := plainStatement_length h
    omega
  | @nested depth xs ys zs us rest name args inner body hdepth h hblock hend hrest ihb ih =>
    have hle := skipSeparators_length xs
    have hlt := h.length_lt
    have hle' := expectStatementEnd_length hend
    omega

def Statement (depth : Nat) (xs : List Lexeme) (n : Node) (rest : List Lexeme) : Prop :=
  plainStatement xs = some (n, rest) ∨
    ∃ name args ys body zs, OpensBlock xs name args ys ∧ Block depth ys body zs ∧
      expectStatementEnd zs = some rest ∧ n = .directive name args (some body)

theorem Statement.length_lt (h : Statement depth xs n rest) : rest.length < xs.length := by
  obtain h | ⟨name, args, ys, body, zs, h, hblock, hend, rfl⟩ := h
  · exact plainStatement_length h
  · have hlt := h.length_lt
    have hlt' := hblock.length_lt
    have hle := expectStatementEnd_length hend
    omega

theorem parseStatement_eq_statement
    (hblock : ∀ {ys body zs}, ys.length < xs.length → (block ys = some (body, zs) ↔ Block depth ys body zs)) :
    parseStatement block xs = some (n, rest) ↔ Statement depth xs n rest := by
  rw [parseStatement_eq_some]
  refine or_congr_right ⟨?_, ?_⟩
  · rintro ⟨name, args, ys, body, zs, h, hbody, hend, rfl⟩
    exact ⟨name, args, ys, body, zs, h, (hblock h.length_lt).mp hbody, hend, rfl⟩
  · rintro ⟨name, args, ys, body, zs, h, hbody, hend, rfl⟩
    exact ⟨name, args, ys, body, zs, h, (hblock h.length_lt).mpr hbody, hend, rfl⟩

theorem Block.cons (hdepth : depth ≤ maxBlockDepth) (h : Statement (depth + 1) (skipSeparators xs) n ys)
    (hrest : Block depth ys body rest) : Block depth xs (n :: body) rest := by
  obtain h | ⟨name, args, ys, inner, zs, h, hblock, hend, rfl⟩ := h
  · exact .plain hdepth h hrest
  · exact .nested hdepth h hblock hend hrest

theorem Block.uncons (h : Block depth xs body rest) :
    depth ≤ maxBlockDepth ∧ (skipSeparators xs = .closeBrace :: rest ∧ body = [] ∨
      ∃ n ys body', Statement (depth + 1) (skipSeparators xs) n ys ∧ Block depth ys body' rest ∧
        body = n :: body') := by
  cases h with
  | close hdepth h => exact ⟨hdepth, .inl ⟨h, rfl⟩⟩
  | plain hdepth h hrest => exact ⟨hdepth, .inr ⟨_, _, _, .inl h, hrest, rfl⟩⟩
  | nested hdepth h hblock hend hrest =>
    exact ⟨hdepth, .inr ⟨_, _, _, .inr ⟨_, _, _, _, _, h, hblock, hend, rfl⟩, hrest, rfl⟩⟩

theorem parseBlockBody_succ :
    parseBlockBody (fuel + 1) depth xs = some (body, rest) ↔
      depth ≤ maxBlockDepth ∧ (skipSeparators xs = .closeBrace :: rest ∧ body = [] ∨
        ∃ n ys body', parseStatement (parseBlockBody fuel (depth + 1)) (skipSeparators xs) =
            some (n, ys) ∧ parseBlockBody fuel depth ys = some (body', rest) ∧
          body = n :: body') := by
  conv_lhs => unfold parseBlockBody
  rw [ite_none_left_eq_some, not_lt]
  refine and_congr_right fun _ => ?_
  split
  case h_1 rest' hclose =>
    rw [hclose]
    constructor
    · intro h
      cases h
      exact .inl ⟨rfl, rfl⟩
    · rintro (⟨h, rfl⟩ | ⟨n, ys, body', h, -⟩)
      · cases h
        rfl
      · cases h
  case h_2 hclose =>
    constructor
    · intro h
      obtain ⟨⟨n, ys⟩, hstmt, h⟩ := bind_eq_some_iff.mp h
      obtain ⟨⟨body', rest'⟩, hrest, h⟩ := map_eq_some_iff.mp h
      cases h
      exact .inr ⟨n, ys, body', hstmt, hrest, rfl⟩
    · rintro (⟨h, -⟩ | ⟨n, ys, body', hstmt, hrest, rfl⟩)
      · exact absurd h (hclose rest)
      · rw [hstmt, bind_some, hrest]
        rfl

theorem parseBlockBody_eq_some (hfuel : xs.length < fuel) :
    parseBlockBody fuel depth xs = some (body, rest) ↔ Block depth xs body rest := by
  induction fuel generalizing depth xs rest body with
  | zero => cases hfuel
  | succ fuel ih =>
    have hskip := skipSeparators_length xs
    -- a statement's block and what follows the statement are shorter
    have hstmt {n : Node} {ys : List Lexeme} :
        parseStatement (parseBlockBody fuel (depth + 1)) (skipSeparators xs) = some (n, ys) ↔
          Statement (depth + 1) (skipSeparators xs) n ys :=
      parseStatement_eq_statement fun hlt => ih (by omega)
    rw [parseBlockBody_succ]
    constructor
    · rintro ⟨hdepth, ⟨h, rfl⟩ | ⟨n, ys, body', h, hrest, rfl⟩⟩
      · exact .close hdepth h
      · have h := hstmt.mp h
        have hlt := h.length_lt
        exact .cons hdepth h ((ih (by omega)).mp hrest)
    · intro hblock
      obtain ⟨hdepth, ⟨h, rfl⟩ | ⟨n, ys, body', h, hrest, rfl⟩⟩ := hblock.uncons
      · exact ⟨hdepth, .inl ⟨h, rfl⟩⟩
      · have hlt := h.length_lt
        exact ⟨hdepth, .inr ⟨n, ys, body', hstmt.mpr h, (ih (by omega)).mpr hrest, rfl⟩⟩

theorem parseStatement_eq_some_statement (hfuel : xs.length ≤ fuel) :
    parseStatement (parseBlockBody fuel depth) xs = some (n, rest) ↔ Statement depth xs n rest :=
  parseStatement_eq_statement fun hlt => parseBlockBody_eq_some (lt_of_lt_of_le hlt hfuel)

/-- The statements of a fragment, up to the end of the file. -/
inductive Fragment : List Lexeme → List Node → Prop
  | eof {xs ys : List Lexeme} (h : skipSeparators xs = .eof :: ys) : Fragment xs []
  | cons {xs ys : List Lexeme} {n : Node} {body : List Node}
    (h : Statement 1 (skipSeparators xs) n ys) (hrest : Fragment ys body) : Fragment xs (n :: body)

theorem not_statement_eof : ¬ Statement depth (.eof :: ys) n rest := by
  rintro (h | ⟨name, args, zs, body, us, ⟨quoted, vs, h, -⟩, -⟩)
  · cases h
  · cases h

theorem parseFragmentBody_eq_some (hfuel : xs.length < fuel) :
    parseFragmentBody fuel xs = some body ↔ Fragment xs body := by
  induction fuel generalizing xs body with
  | zero => cases hfuel
  | succ fuel ih =>
    have hskip := skipSeparators_length xs
    conv_lhs => unfold parseFragmentBody
    split
    case h_1 ys heof =>
      constructor
      · intro h
        cases h
        exact .eof heof
      · intro h
        cases h with
        | eof => rfl
        | cons h =>
          rw [heof] at h
          exact absurd h not_statement_eof
    case h_2 heof =>
      constructor
      · intro h
        obtain ⟨⟨n, ys⟩, hstmt, h⟩ := bind_eq_some_iff.mp h
        obtain ⟨body', hrest, rfl⟩ := map_eq_some_iff.mp h
        have hstmt := (parseStatement_eq_some_statement (by omega)).mp hstmt
        have hlt := hstmt.length_lt
        exact .cons hstmt ((ih (by omega)).mp hrest)
      · intro h
        cases h with
        | eof h => exact absurd h (heof _)
        | cons hstmt hrest =>
          have hlt := hstmt.length_lt
          rw [(parseStatement_eq_some_statement (by omega)).mpr hstmt, bind_some,
            (ih (by omega)).mpr hrest]
          rfl

/-- The sites and the statements of a file, up to its end. -/
inductive Top : List Lexeme → List Site → List Node → Prop
  | eof {xs ys : List Lexeme} (h : skipSeparators xs = .eof :: ys) : Top xs [] []
  | site {xs ys zs : List Lexeme} {addrs : List Str} {inner body : List Node} {sites : List Site}
    (hstarts : startsSiteBlock (skipSeparators xs) = true)
    (hheader : siteHeader (skipSeparators xs) = some (addrs, ys)) (haddrs : addrs ≠ [])
    (hblock : Block 1 ys inner zs) (hrest : Top zs sites body) :
    Top xs (⟨addrs, inner⟩ :: sites) body
  | statement {xs ys : List Lexeme} {n : Node} {body : List Node} {sites : List Site}
    (hstarts : startsSiteBlock (skipSeparators xs) = false)
    (hwrap : unseparatedAddrWrap (skipSeparators xs) = false)
    (h : Statement 1 (skipSeparators xs) n ys) (hrest : Top ys sites body) :
    Top xs sites (n :: body)

theorem Top.congr {sites : List Site} (h : Top xs sites body)
    (hskip : skipSeparators ys = skipSeparators xs) : Top ys sites body := by
  cases h with
  | eof h => exact .eof (hskip.trans h)
  | site hstarts hheader hne hblock hrest =>
    rw [← hskip] at hstarts hheader
    exact .site hstarts hheader hne hblock hrest
  | statement hstarts hwrap h hrest =>
    rw [← hskip] at hstarts hwrap h
    exact .statement hstarts hwrap h hrest

theorem siteHeader_length {addrs : List Str} (h : siteHeader xs = some (addrs, ys)) :
    ys.length < xs.length := by
  fun_induction siteHeader xs generalizing addrs with
  | case1 xs =>
    cases h
    exact lt_succ_self _
  | case2 text quoted xs ih =>
    obtain ⟨⟨addrs', ys'⟩, h', hr⟩ := map_eq_some_iff.mp h
    cases hr
    exact lt_succ_of_lt (ih h')
  | case3 xs ih | case4 _ xs ih => exact lt_succ_of_lt (ih h)
  | case5 => cases h

theorem parseSite_eq_some {site : Site} (hfuel : xs.length ≤ fuel) :
    parseSite fuel xs = some (site, rest) ↔
      ∃ ys, siteHeader xs = some (site.addresses, ys) ∧ site.addresses ≠ [] ∧
        Block 1 ys site.body rest := by
  unfold parseSite
  constructor
  · intro h
    obtain ⟨⟨addrs, ys⟩, hheader, h⟩ := bind_eq_some_iff.mp h
    obtain ⟨hne, h⟩ := ite_none_left_eq_some.mp h
    obtain ⟨⟨body, rest'⟩, hblock, h⟩ := map_eq_some_iff.mp h
    cases h
    have hlt := lt_of_lt_of_le (siteHeader_length hheader) hfuel
    exact ⟨ys, hheader, fun hnil => hne (List.isEmpty_iff.mpr hnil),
      (parseBlockBody_eq_some hlt).mp hblock⟩
  · rintro ⟨ys, hheader, hne, hblock⟩
    have hlt := lt_of_lt_of_le (siteHeader_length hheader) hfuel
    rw [hheader, bind_some, if_neg fun hnil => hne (List.isEmpty_iff.mp hnil),
      (parseBlockBody_eq_some hlt).mpr hblock]
    rfl

theorem parseTop_eq_some {sites : List Site} (hfuel : xs.length < fuel) :
    parseTop fuel xs = some (sites, body) ↔ Top xs sites body := by
  induction fuel generalizing xs sites body with
  | zero => cases hfuel
  | succ fuel ih =>
    have hskip := skipSeparators_length xs
    conv_lhs => unfold parseTop
    split
    case h_1 ys heof =>
      constructor
      · intro h
        cases h
        exact .eof heof
      · intro h
        cases h with
        | eof => rfl
        | site hstarts =>
          rw [heof] at hstarts
          cases hstarts
        | statement _ _ h =>
          rw [heof] at h
          exact absurd h not_statement_eof
    case h_2 ys hclose =>
      constructor
      · intro h
        cases h
      · intro h
        cases h with
        | eof h =>
          rw [hclose] at h
          cases h
        | site hstarts =>
          rw [hclose] at hstarts
          cases hstarts
        | statement _ _ h =>
          rw [hclose] at h
          obtain h | ⟨name, args, zs, inner, us, ⟨quoted, vs, h, -⟩, -⟩ := h <;> cases h
    case h_3 heof hclose =>
      by_cases hstarts : startsSiteBlock (skipSeparators xs) = true
      · rw [if_pos hstarts]
        constructor
        · intro h
          obtain ⟨⟨⟨addrs, inner⟩, ys⟩, hsite, h⟩ := bind_eq_some_iff.mp h
          obtain ⟨⟨sites', body'⟩, hrest, h⟩ := map_eq_some_iff.mp h
          cases h
          obtain ⟨zs, hheader, hne, hblock⟩ := (parseSite_eq_some (by omega)).mp hsite
          have hlt := siteHeader_length hheader
          have hlt' := hblock.length_lt
          exact .site hstarts hheader hne hblock ((ih (by omega)).mp hrest)
        · intro h
          cases h with
          | eof h => exact absurd h (heof _)
          | @site _ ys zs addrs inner _ sites _ hheader hne hblock hrest =>
            have hlt := siteHeader_length hheader
            have hlt' := hblock.length_lt
            have hsite : parseSite fuel (skipSeparators xs) = some (⟨addrs, inner⟩, zs) :=
              (parseSite_eq_some (by omega)).mpr ⟨ys, hheader, hne, hblock⟩
            rw [hsite, bind_some, (ih (by omega)).mpr hrest]
            rfl
          | statement hstarts' =>
            rw [hstarts] at hstarts'
            cases hstarts'
      · rw [if_neg hstarts]
        have hstarts := Bool.eq_false_iff.mpr hstarts
        constructor
        · intro h
          obtain ⟨hwrap, h⟩ := ite_none_left_eq_some.mp h
          obtain ⟨⟨n, ys⟩, hstmt, h⟩ := bind_eq_some_iff.mp h
          obtain ⟨⟨sites', body'⟩, hrest, h⟩ := map_eq_some_iff.mp h
          cases h
          have hstmt := (parseStatement_eq_some_statement (by omega)).mp hstmt
          have hlt := hstmt.length_lt
          exact .statement hstarts (Bool.eq_false_iff.mpr hwrap) hstmt
            ((ih (by omega)).mp hrest)
        · intro h
          cases h with
          | eof h => exact absurd h (heof _)
          | site hstarts' =>
            rw [hstarts] at hstarts'
            cases hstarts'
          | statement _ hwrap hstmt hrest =>
            have hlt := hstmt.length_lt
            rw [hwrap, (parseStatement_eq_some_statement (by omega)).mpr hstmt, bind_some,
              (ih (by omega)).mpr hrest]
            rfl

theorem parseFile_eq_some {f : File} :
    parseFile xs = some f ↔
      (∃ ys inner zs, skipSeparators xs = .openBrace :: ys ∧ f.globalOptions = some inner ∧
        Block 1 ys inner zs ∧ Top zs f.sites f.body) ∨
      ((∀ ys, skipSeparators xs ≠ .openBrace :: ys) ∧ f.globalOptions = none ∧
        Top (skipSeparators xs) f.sites f.body) := by
  obtain ⟨options, sites, body⟩ := f
  unfold parseFile
  split
  case h_1 ys hopen =>
    constructor
    · intro h
      obtain ⟨⟨inner, zs⟩, hblock, h⟩ := bind_eq_some_iff.mp h
      obtain ⟨⟨sites', body'⟩, htop, h⟩ := map_eq_some_iff.mp h
      cases h
      exact .inl ⟨ys, inner, zs, hopen, rfl, (parseBlockBody_eq_some (lt_succ_self _)).mp hblock,
        (parseTop_eq_some (lt_succ_self _)).mp htop⟩
    · rintro (⟨ys', inner, zs, hopen', rfl, hblock, htop⟩ | ⟨hnot, -⟩)
      · rw [hopen] at hopen'
        obtain ⟨-, rfl⟩ := hopen'
        rw [(parseBlockBody_eq_some (lt_succ_self _)).mpr hblock, bind_some,
          (parseTop_eq_some (lt_succ_self _)).mpr htop]
        rfl
      · exact absurd hopen (hnot ys)
  case h_2 hopen =>
    constructor
    · intro h
      obtain ⟨⟨sites', body'⟩, htop, h⟩ := map_eq_some_iff.mp h
      cases h
      exact .inr ⟨hopen, rfl, (parseTop_eq_some (lt_succ_self _)).mp htop⟩
    · rintro (⟨ys', inner, zs, hopen', -⟩ | ⟨-, rfl, htop⟩)
      · exact absurd hopen' (hopen ys')
      · rw [(parseTop_eq_some (lt_succ_self _)).mpr htop]
        rfl

end Cadishfile

end Cadish
