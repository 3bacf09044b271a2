import Cadish.Cadishfile.Syntax
import Cadish.Runes
import Mathlib.Data.List.TakeWhile

/-!
# Lexing a Cadishfile

A brace opens a block or begins a placeholder: `{device}` is a word if it closes without white
space. `tokenize` is the loop of the source; what the parser reads are the *lexemes*, given chunk by
chunk (`LexesTo`): **a word, a quoted text, a brace or a comment lexes to itself, whatever follows
it that may follow it**. A byte that is part of no character is written as U+FFFD; columns and
messages are left out.
-/

namespace Cadish

open List Option Str

namespace Cadishfile

/-! ## Tokens -/

/-- `TokenKind` with the text of a token. -/
inductive Lexeme where
  | word (text : Str) (quoted : Bool)
  | openBrace
  | closeBrace
  | semicolon
  | newline
  | comment (text : Str)
  | eof
deriving DecidableEq, Repr

structure Token where
  lexeme : Lexeme
  line : Nat
  blankBefore : Nat
deriving DecidableEq, Repr

variable (b : UInt8) (s : Str)

def isDisallowedControl : Bool :=
  (b < 0x20 && b != byte '\t' && b != byte '\n' && b != byte '\r') || b == 0x7f

def isBlank : Bool :=
  b == byte ' ' || b == byte '\t' || b == byte '\n' || b == byte '\r'

/-- Behind so many open braces, they close before white space and control characters. -/
def closes : Nat → Str → Bool
  | _, [] => false
  | depth, b :: s =>
    if isBlank b || isDisallowedControl b then false
    else if b = byte '{' then closes (depth + 1) s
    else if b = byte '}' then depth ≤ 1 || closes (depth - 1) s
    else closes depth s

/-- How many bytes of a line break follow a backslash. -/
def continuationLen : Nat :=
  if s.head? = some (byte '\n') then 1
  else if s.head? = some (byte '\r') ∧ s.tail.head? = some (byte '\n') then 2
  else 0

def endsWord : Bool :=
  isBlank b || isDisallowedControl b || b == byte ';' || b == byte '}' ||
    (b == byte '\\' && continuationLen s != 0) || (b == byte '{' && !closes 1 s)

/-- The loop of `lexWord`: the word in front and the rest, behind so many open braces. -/
def wordSplit : Nat → Str → Str × Str
  | _, [] => ([], [])
  | 0, b :: s =>
    if endsWord b s then ([], b :: s)
    else
      let r := wordSplit (if b = byte '{' then 1 else 0) s
      (b :: r.1, r.2)
  | depth + 1, b :: s =>
    let depth := if b = byte '{' then depth + 2 else if b = byte '}' then depth else depth + 1
    let r := wordSplit depth s
    (b :: r.1, r.2)

/-- The loop of `lexQuoted`: the quoted text behind the first quote, and the rest. -/
def quotedSplit : Str → Option (Str × Str)
  | [] => none
  | b :: s =>
    if isDisallowedControl b then none
    else if b = byte '\\' then
      match s with
      | [] => none
      | e :: s =>
        if isDisallowedControl e then none
        else if e = byte '"' ∨ e = byte '\\' then
          (quotedSplit s).map fun r => (e :: r.1, r.2)
        else (quotedSplit s).map fun r => (b :: e :: r.1, r.2)
    else if b = byte '"' then some ([], s)
    else (quotedSplit s).map fun r => (b :: r.1, r.2)

def inComment : Bool := b != byte '\n' && !isDisallowedControl b

/-- `strings.TrimRight`, of spaces, tabs and carriage returns. -/
def trimLineEnd : Str :=
  (s.reverse.dropWhile fun b => b == byte ' ' || b == byte '\t' || b == byte '\r').reverse

/-! ## The lexer -/

structure Lexer where
  src : Str
  line : Nat
  /-- the blank lines seen since the last token -/
  pendingBlank : Nat
  atLineStart : Bool

/-- The turns of `next` that emit nothing, after so many bytes of a line break. -/
def skipBlanks : Nat → Nat → Nat → Bool → Str → Lexer
  | _, line, pending, start, [] => ⟨[], line, pending, start⟩
  | n + 1, line, pending, start, b :: s =>
    skipBlanks n (if b = byte '\n' then line + 1 else line) pending start s
  | 0, line, pending, start, b :: s =>
    if b = byte '\n' then
      if start then skipBlanks 0 (line + 1) (pending + 1) start s else ⟨b :: s, line, pending, start⟩
    else if isBlank b then skipBlanks 0 line pending start s
    else if b = byte '\\' ∧ continuationLen s ≠ 0 then
      skipBlanks (continuationLen s) line pending start s
    else ⟨b :: s, line, pending, start⟩

namespace Lexer

/-- `takeBlank`: the blank lines that the next token reports. -/
def blanks (l : Lexer) : Nat := if l.atLineStart then l.pendingBlank else 0

def emit (l : Lexer) (x : Lexeme) (rest : Str) : Token × Lexer :=
  (⟨x, l.line, l.blanks⟩,
    { src := rest
      line := l.line + (l.src.take (l.src.length - rest.length)).count (byte '\n')
      pendingBlank := if l.atLineStart then 0 else l.pendingBlank
      atLineStart := false })

def lexWord (l : Lexer) : Token × Lexer :=
  let r := wordSplit 0 l.src
  l.emit (.word (toValidRunes 0 r.1) false) r.2

def nextToken (l : Lexer) : Option (Token × Lexer) :=
  match l.src with
  | [] => some (l.emit .eof [])
  | b :: s =>
    if isDisallowedControl b then none
    else if b = byte '\n' then
      some (⟨.newline, l.line, 0⟩, ⟨s, l.line + 1, l.pendingBlank, true⟩)
    else if b = byte '#' then
      some (l.emit (.comment (trimLineEnd ((b :: s).takeWhile inComment))) ((b :: s).dropWhile inComment))
    else if b = byte '{' ∧ closes 1 s = false then some (l.emit .openBrace s)
    else if b = byte '}' then some (l.emit .closeBrace s)
    else if b = byte ';' then
      some (⟨.semicolon, l.line, 0⟩, ⟨s, l.line, l.pendingBlank, false⟩)
    else if b = byte '"' then
      (quotedSplit s).map fun r => l.emit (.word (toValidRunes 0 r.1) true) r.2
    else some l.lexWord

def next (l : Lexer) : Option (Token × Lexer) :=
  (skipBlanks 0 l.line l.pendingBlank l.atLineStart l.src).nextToken

end Lexer

def tokenizeFrom : Nat → Lexer → Option (List Token)
  | 0, _ => none
  | fuel + 1, l =>
    match l.next with
    | none => none
    | some (t, l') => if t.lexeme = .eof then some [t] else (tokenizeFrom fuel l').map (t :: ·)

def bom : Str := [0xef, 0xbb, 0xbf]

def newLexer (src : Str) : Lexer :=
  ⟨if hasPrefix src bom then src.drop 3 else src, 1, 0, true⟩

/-- `tokenize`. A token takes a byte at least, so that the loop has turns enough. -/
def tokenize (src : Str) : Option (List Token) :=
  tokenizeFrom ((newLexer src).src.length + 1) (newLexer src)

def lexemes (src : Str) : Option (List Lexeme) := (tokenize src).map (·.map (·.lexeme))

/-! ## Progress -/

/-- What `skipBlanks` leaves does not begin with something that it skips. -/
def Ready : Str → Prop
  | [] => True
  | b :: s => (isBlank b = true → b = byte '\n') ∧
      ¬ (b = byte '\\' ∧ continuationLen s ≠ 0)

theorem skipBlanks_ready (n line pending : Nat) (start : Bool) (s : Str) :
    Ready (skipBlanks n line pending start s).src ∧
      (skipBlanks n line pending start s).src.length ≤ s.length := by
  fun_induction skipBlanks n line pending start s with
  | case1 => exact ⟨trivial, Nat.le_refl _⟩
  | case2 _ _ _ _ _ _ ih | case3 _ _ _ ih | case5 _ _ _ _ _ _ _ ih | case6 _ _ _ _ _ _ _ _ ih =>
    exact ⟨ih.1, Nat.le_succ_of_le ih.2⟩
  | case4 => exact ⟨⟨fun _ => rfl, fun h => absurd h.1 (by decide)⟩, Nat.le_refl _⟩
  | case7 _ _ _ _ _ _ hblank hcont => exact ⟨⟨fun h => absurd h hblank, hcont⟩, Nat.le_refl _⟩

theorem wordSplit_append (depth : Nat) (s : Str) :
    (wordSplit depth s).1 ++ (wordSplit depth s).2 = s := by
  induction s generalizing depth with
  | nil => cases depth <;> rfl
  | cons b s ih =>
    cases depth with
    | zero =>
      unfold wordSplit
      split
      · rfl
      · exact congrArg (b :: ·) (ih _)
    | succ depth => exact congrArg (b :: ·) (ih _)

/-- A quoted text behind its first quote: what is left of it without the escapes, and what follows. -/
inductive Quoted : Str → Str → Str → Prop
  | close {s : Str} : Quoted (byte '"' :: s) [] s
  | escaped {e : UInt8} {s t rest : Str} (he : e = byte '"' ∨ e = byte '\\')
    (h : Quoted s t rest) : Quoted (byte '\\' :: e :: s) (e :: t) rest
  | backslash {e : UInt8} {s t rest : Str} (hcontrol : isDisallowedControl e = false)
    (he : ¬ (e = byte '"' ∨ e = byte '\\')) (h : Quoted s t rest) :
    Quoted (byte '\\' :: e :: s) (byte '\\' :: e :: t) rest
  | plain {b : UInt8} {s t rest : Str} (hcontrol : isDisallowedControl b = false)
    (hescape : b ≠ byte '\\') (hquote : b ≠ byte '"') (h : Quoted s t rest) :
    Quoted (b :: s) (b :: t) rest

theorem quotedSplit_eq_some {s t rest : Str} : quotedSplit s = some (t, rest) ↔ Quoted s t rest := by
  constructor
  · intro h
    fun_induction quotedSplit s generalizing t rest with
    | case1 | case2 | case3 | case4 => cases h
    | case5 e s hcontrol he _ ih =>
      obtain ⟨r, hr, heq⟩ := map_eq_some_iff.mp h
      cases heq
      exact .escaped he (ih hr)
    | case6 e s hcontrol he _ ih =>
      obtain ⟨r, hr, heq⟩ := map_eq_some_iff.mp h
      cases heq
      exact .backslash (Bool.eq_false_iff.mpr hcontrol) he (ih hr)
    | case7 =>
      cases h
      exact .close
    | case8 b s hcontrol hescape hquote ih =>
      obtain ⟨r, hr, heq⟩ := map_eq_some_iff.mp h
      cases heq
      exact .plain (Bool.eq_false_iff.mpr hcontrol) hescape hquote (ih hr)
  · intro h
    induction h with
    | close =>
      rw [quotedSplit.eq_def]
      rfl
    | @escaped e s t rest he h ih =>
      have hcontrol : isDisallowedControl e = false := by
        rcases he with rfl | rfl
        · rfl
        · rfl
      rw [quotedSplit, if_neg (by decide), if_pos rfl]
      simp only [hcontrol, Bool.false_eq_true, if_false, if_pos he, ih, map_some]
    | @backslash e s t rest hcontrol he h ih =>
      rw [quotedSplit, if_neg (by decide), if_pos rfl]
      simp only [hcontrol, Bool.false_eq_true, if_false, if_neg he, ih, map_some]
    | @plain b s t rest hcontrol hescape hquote h ih =>
      rw [quotedSplit.eq_def]
      simp only [hcontrol, Bool.false_eq_true, if_false, hescape, hquote, ih, map_some]

theorem Quoted.frame {s t rest : Str} (h : Quoted s t rest) :
    ∃ p, s = p ++ byte '"' :: rest ∧ ∀ rest', Quoted (p ++ byte '"' :: rest') t rest' := by
  induction h with
  | close => exact ⟨[], rfl, fun _ => .close⟩
  | escaped he _ ih =>
    obtain ⟨p, rfl, hp⟩ := ih
    exact ⟨_ :: _ :: p, rfl, fun rest' => .escaped he (hp rest')⟩
  | backslash hcontrol he _ ih =>
    obtain ⟨p, rfl, hp⟩ := ih
    exact ⟨_ :: _ :: p, rfl, fun rest' => .backslash hcontrol he (hp rest')⟩
  | plain hcontrol hescape hquote _ ih =>
    obtain ⟨p, rfl, hp⟩ := ih
    exact ⟨_ :: p, rfl, fun rest' => .plain hcontrol hescape hquote (hp rest')⟩

/-- What the lexer can do where it emits something: the source, the lexeme, the rest of the source
and whether a line begins there. -/
inductive Emits : Str → Lexeme → Str → Bool → Prop
  | eof : Emits [] .eof [] false
  | newline {s : Str} : Emits (byte '\n' :: s) .newline s true
  | comment {s : Str} : Emits (byte '#' :: s)
      (.comment (trimLineEnd ((byte '#' :: s).takeWhile inComment)))
      ((byte '#' :: s).dropWhile inComment) false
  | openBrace {s : Str} (h : closes 1 s = false) : Emits (byte '{' :: s) .openBrace s false
  | closeBrace {s : Str} : Emits (byte '}' :: s) .closeBrace s false
  | semicolon {s : Str} : Emits (byte ';' :: s) .semicolon s false
  | quoted {s : Str} {r : Str × Str} (h : quotedSplit s = some r) :
    Emits (byte '"' :: s) (.word (toValidRunes 0 r.1) true) r.2 false
  | word {b : UInt8} {s : Str} (h : endsWord b s = false) (hcomment : b ≠ byte '#')
    (hquote : b ≠ byte '"') :
    Emits (b :: s) (.word (toValidRunes 0 (wordSplit 0 (b :: s)).1) false)
      (wordSplit 0 (b :: s)).2 false

theorem Lexer.nextToken_emits {l l' : Lexer} {t : Token} (hready : Ready l.src)
    (h : l.nextToken = some (t, l')) : Emits l.src t.lexeme l'.src l'.atLineStart := by
  obtain ⟨src, line, pending, start⟩ := l
  cases src with
  | nil =>
    cases h
    exact .eof
  | cons b s =>
    obtain ⟨hcontrol, h⟩ := ite_none_left_eq_some.mp h
    by_cases hnewline : b = byte '\n'
    · rw [if_pos hnewline] at h
      cases h
      exact hnewline ▸ .newline
    rw [if_neg hnewline] at h
    by_cases hcomment : b = byte '#'
    · rw [if_pos hcomment] at h
      cases h
      exact hcomment ▸ .comment
    rw [if_neg hcomment] at h
    by_cases hopen : b = byte '{' ∧ closes 1 s = false
    · rw [if_pos hopen] at h
      cases h
      exact hopen.1 ▸ .openBrace hopen.2
    rw [if_neg hopen] at h
    by_cases hclose : b = byte '}'
    · rw [if_pos hclose] at h
      cases h
      exact hclose ▸ .closeBrace
    rw [if_neg hclose] at h
    by_cases hsemi : b = byte ';'
    · rw [if_pos hsemi] at h
      cases h
      exact hsemi ▸ .semicolon
    rw [if_neg hsemi] at h
    by_cases hquote : b = byte '"'
    · rw [if_pos hquote] at h
      obtain ⟨r, hr, hr'⟩ := map_eq_some_iff.mp h
      cases hr'
      exact hquote ▸ .quoted hr
    rw [if_neg hquote] at h
    cases h
    refine .word ?_ hcomment hquote
    have hblank : isBlank b = false := by
      by_contra hb
      exact hnewline (hready.1 (by simpa using hb))
    simp only [endsWord, hblank, hcontrol, hsemi, hclose, beq_iff_eq, Bool.or_eq_false_iff,
      Bool.and_eq_false_imp, bne_eq_false_iff_eq, beq_eq_false_iff_ne, ne_eq,
      not_false_eq_true, true_and]
    exact ⟨fun hb => not_not.mp fun hc => hready.2 ⟨hb, hc⟩,
      fun hb => by simpa [hb] using hopen⟩

theorem Emits.tail {s s' : Str} {x : Lexeme} {start : Bool} (h : Emits s x s' start) (hx : x ≠ .eof) :
    ∃ p, p ≠ [] ∧ s = p ++ s' := by
  cases h with
  | eof => exact absurd rfl hx
  | newline | openBrace | closeBrace | semicolon => exact ⟨[_], cons_ne_nil _ _, rfl⟩
  | @comment s =>
    exact ⟨(byte '#' :: s).takeWhile inComment, cons_ne_nil _ _, (takeWhile_append_dropWhile ..).symm⟩
  | quoted h =>
    obtain ⟨p, rfl, -⟩ := (quotedSplit_eq_some.mp h).frame
    exact ⟨byte '"' :: (p ++ [byte '"']), cons_ne_nil _ _, by simp⟩
  | @word b s h =>
    refine ⟨_, ?_, (wordSplit_append 0 (b :: s)).symm⟩
    rw [wordSplit, if_neg (by rw [h]; exact Bool.false_ne_true)]
    exact cons_ne_nil _ _

theorem length_lt_of_tail {s s' : Str} (h : ∃ p, p ≠ [] ∧ s = p ++ s') : s'.length < s.length := by
  obtain ⟨p, hp, rfl⟩ := h
  rw [length_append]
  exact Nat.lt_add_of_pos_left (length_pos_iff.mpr hp)

theorem Lexer.next_emits {l l' : Lexer} {t : Token} (h : l.next = some (t, l')) :
    ∃ s, s.length ≤ l.src.length ∧ Emits s t.lexeme l'.src l'.atLineStart := by
  obtain ⟨hready, hle⟩ := skipBlanks_ready 0 l.line l.pendingBlank l.atLineStart l.src
  exact ⟨_, hle, nextToken_emits hready h⟩

/-! ## The tokens of a source -/

inductive Tokens : Lexer → List Token → Prop
  | eof {l l' : Lexer} {t : Token} (h : l.next = some (t, l')) (ht : t.lexeme = .eof) : Tokens l [t]
  | cons {l l' : Lexer} {t : Token} {ts : List Token} (h : l.next = some (t, l'))
    (ht : t.lexeme ≠ .eof) (hts : Tokens l' ts) : Tokens l (t :: ts)

theorem tokenizeFrom_eq_some {fuel : Nat} {l : Lexer} {ts : List Token}
    (hfuel : l.src.length < fuel) : tokenizeFrom fuel l = some ts ↔ Tokens l ts := by
  induction fuel generalizing l ts with
  | zero => cases hfuel
  | succ fuel ih =>
    unfold tokenizeFrom
    cases hnext : l.next with
    | none =>
      constructor
      · intro h
        cases h
      · intro h
        cases h with
        | eof h | cons h => exact absurd (hnext.symm.trans h) (some_ne_none _).symm
    | some r =>
      obtain ⟨t, l'⟩ := r
      dsimp only
      by_cases ht : t.lexeme = .eof
      · rw [if_pos ht]
        constructor
        · intro h
          cases h
          exact .eof hnext ht
        · intro h
          cases h with
          | eof h => rw [hnext] at h; cases h; rfl
          | cons h ht' => rw [hnext] at h; cases h; exact absurd ht ht'
      · rw [if_neg ht]
        obtain ⟨s, hs, hemits⟩ := Lexer.next_emits hnext
        have hshorter : l'.src.length < fuel := by
          have := length_lt_of_tail (hemits.tail ht)
          omega
        constructor
        · intro h
          obtain ⟨ts', hts', rfl⟩ := map_eq_some_iff.mp h
          exact .cons hnext ht ((ih hshorter).mp hts')
        · intro h
          cases h with
          | eof h ht' => rw [hnext] at h; cases h; exact absurd ht' ht
          | cons h _ hts =>
            rw [hnext] at h
            cases h
            rw [(ih hshorter).mpr hts]
            rfl

theorem tokenize_eq_some {src : Str} {ts : List Token} :
    tokenize src = some ts ↔ Tokens (newLexer src) ts :=
  tokenizeFrom_eq_some (Nat.lt_succ_self _)

end Cadishfile

end Cadish
