import Cadish.Cadishfile.Parser

/-!
# Formatting a Cadishfile

`Format` writes the tokens again, one statement a line. What the formatted text lexes to is told by
`Reflow`: semicolons have become ends of lines, a line ends at every brace, empty lines are gone,
and some bare words are quoted. **The formatted text of every source lexes to a reflow of its
lexemes** (`lexFrom_render`).
-/

namespace Cadish

open List Str Bool

namespace Cadishfile

variable {xs : List Lexeme} {c s : Str} {b : UInt8} {ts : List Token}

/-! ## The formatter -/

structure Printer where
  depth : Nat
  atLineStart : Bool
  wroteAny : Bool
  /-- a blank line is to be written in front of the next line -/
  pendingBlank : Bool
  /-- a block was opened, and blank lines are dropped at its top -/
  suppressBlank : Bool

namespace Printer

variable (p : Printer)

def note (t : Token) : Printer :=
  { p with
    pendingBlank := p.pendingBlank || (0 < t.blankBefore && p.atLineStart && !p.suppressBlank)
    suppressBlank := p.suppressBlank &&
      (t.lexeme == .newline || (t.lexeme == .semicolon && p.atLineStart)) }

def indentation : Str :=
  (if p.pendingBlank && p.wroteAny then [byte '\n'] else []) ++
    List.replicate (4 * p.depth) (byte ' ')

/-- What is written in front of a word, a brace or a comment. -/
def lead : Str := if p.atLineStart then p.indentation else [byte ' ']

def started : Printer :=
  { p with
    atLineStart := false
    wroteAny := p.wroteAny || p.atLineStart
    pendingBlank := !p.atLineStart && p.pendingBlank }

def lineEnd : Str := if p.atLineStart then [] else [byte '\n']

def ended : Printer := { p with atLineStart := true }

def opened : Printer :=
  { p.started.ended with depth := p.depth + 1, pendingBlank := false, suppressBlank := true }

def closing : Printer :=
  { p.ended with depth := p.depth - 1, pendingBlank := false }

end Printer

def trailingComment (line : Nat) (t : Token) : Option Str :=
  match t.lexeme with
  | .comment c => if t.line = line then some c else none
  | _ => none

def render : Printer → List Token → Str
  | p, [] => p.lineEnd
  | p, t :: ts =>
    let p := p.note t
    match t.lexeme with
    | .eof => render p ts
    | .newline => p.lineEnd ++ render p.ended ts
    | .semicolon => p.lineEnd ++ render p.ended ts
    | .comment c => p.lead ++ (c ++ byte '\n' :: render p.started.ended ts)
    | .word text quoted => p.lead ++ (formatWord text quoted ++ render p.started ts)
    | .openBrace =>
      p.lead ++ byte '{' ::
        match ts with
        | [] => byte '\n' :: render p.opened []
        | u :: us =>
          match trailingComment t.line u with
          | some c => byte ' ' :: (c ++ byte '\n' :: render p.opened us)
          | none => byte '\n' :: render p.opened (u :: us)
    | .closeBrace =>
      p.lineEnd ++ (p.closing.indentation ++ byte '}' ::
        match ts with
        | [] => byte '\n' :: render p.closing.started.ended []
        | u :: us =>
          match trailingComment t.line u with
          | some c => byte ' ' :: (c ++ byte '\n' :: render p.closing.started.ended us)
          | none => byte '\n' :: render p.closing.started.ended (u :: us))

def newPrinter : Printer := ⟨0, true, false, false, false⟩

def trimNewlines (s : Str) : Str := s.rdropWhile (· == byte '\n')

def format (src : Str) : Option Str :=
  (tokenize src).bind fun ts => (parse src).map fun _ =>
    let out := trimNewlines (render newPrinter ts)
    if out.isEmpty then [] else out ++ [byte '\n']

/-! ## The formatted text -/

variable {p : Printer}

def lineEnd (start : Bool) : List Lexeme := if start then [] else [.newline]

/-- What the lexemes of a source become, at the beginning of a line or not. -/
inductive Reflow : Bool → List Lexeme → List Lexeme → Prop
  | eof {start : Bool} : Reflow start [.eof] (lineEnd start ++ [.eof])
  | newline {start : Bool} {xs ys : List Lexeme} (h : Reflow true xs ys) :
    Reflow start (.newline :: xs) (lineEnd start ++ ys)
  | semicolon {start : Bool} {xs ys : List Lexeme} (h : Reflow true xs ys) :
    Reflow start (.semicolon :: xs) (lineEnd start ++ ys)
  | comment {start : Bool} {c : Str} {xs ys : List Lexeme}
    (hxs : xs.head? = some .newline ∨ xs = [.eof]) (h : Reflow true xs ys) :
    Reflow start (.comment c :: xs) (.comment c :: .newline :: ys)
  | openBrace {start : Bool} {xs ys : List Lexeme} (h : Reflow true xs ys) :
    Reflow start (.openBrace :: xs) (.openBrace :: .newline :: ys)
  | openComment {start : Bool} {c : Str} {xs ys : List Lexeme} (h : Reflow true xs ys) :
    Reflow start (.openBrace :: .comment c :: xs) (.openBrace :: .comment c :: .newline :: ys)
  | closeBrace {start : Bool} {xs ys : List Lexeme} (h : Reflow true xs ys) :
    Reflow start (.closeBrace :: xs) (lineEnd start ++ .closeBrace :: .newline :: ys)
  | closeComment {start : Bool} {c : Str} {xs ys : List Lexeme} (h : Reflow true xs ys) :
    Reflow start (.closeBrace :: .comment c :: xs)
      (lineEnd start ++ .closeBrace :: .comment c :: .newline :: ys)
  | word {start : Bool} {text : Str} {quoted : Bool} {xs ys : List Lexeme} (h : Reflow false xs ys) :
    Reflow start (.word text quoted :: xs) (.word text (quoted || needsQuoting text) :: ys)

theorem Reflow.separator {start : Bool} {x : Lexeme} {ys : List Lexeme}
    (hx : x = .newline ∨ x = .semicolon) (h : Reflow true xs ys) :
    Reflow start (x :: xs) (lineEnd start ++ ys) := by
  obtain rfl | rfl := hx
  · exact .newline h
  · exact .semicolon h

def renderBraceEnd (p : Printer) (line : Nat) : List Token → Str
  | [] => byte '\n' :: render p []
  | u :: us =>
    match trailingComment line u with
    | some c => byte ' ' :: (c ++ byte '\n' :: render p us)
    | none => byte '\n' :: render p (u :: us)

def renderLexeme (p : Printer) (line : Nat) (ts : List Token) : Lexeme → Str
  | .eof => render p ts
  | .newline | .semicolon => p.lineEnd ++ render p.ended ts
  | .comment c => p.lead ++ (c ++ byte '\n' :: render p.started.ended ts)
  | .word text quoted => p.lead ++ (formatWord text quoted ++ render p.started ts)
  | .openBrace => p.lead ++ byte '{' :: renderBraceEnd p.opened line ts
  | .closeBrace =>
    p.lineEnd ++ (p.closing.indentation ++
      byte '}' :: renderBraceEnd p.closing.started.ended line ts)

theorem render_cons (p : Printer) (t : Token) (ts : List Token) :
    render p (t :: ts) = renderLexeme (p.note t) t.line ts t.lexeme := by
  cases ht : t.lexeme <;> cases ts <;> simp only [render, ht, renderLexeme, renderBraceEnd]

theorem trailingComment_eq_some {line : Nat} {t : Token} (h : trailingComment line t = some c) :
    t.lexeme = .comment c := by
  unfold trailingComment at h
  split at h
  case h_1 c' ht =>
    obtain ⟨-, h⟩ := Option.ite_none_right_eq_some.mp h
    cases h
    exact ht
  case h_2 => cases h

theorem Script.of_comment (h : Script (.comment c :: xs)) :
    IsComment c ∧ Script xs ∧ (xs.head? = some .newline ∨ xs = [.eof]) := by
  cases h with
  | lastComment hc => exact ⟨hc, .eof, .inr rfl⟩
  | comment hc hxs =>
    exact ⟨hc, .cons (fun h => by cases h) (fun _ h => by cases h) trivial hxs, .inl rfl⟩
  | cons _ hcomment => exact absurd rfl (hcomment c)

theorem Script.of_eof (h : Script (.eof :: xs)) : xs = [] := by
  cases h with
  | eof => rfl
  | cons heof => exact absurd rfl heof

theorem Script.of_cons {x : Lexeme} (h : Script (x :: xs)) (heof : x ≠ .eof) : x.Sound ∧ Script xs := by
  cases h with
  | eof => exact absurd rfl heof
  | lastComment hc => exact ⟨hc, .eof⟩
  | comment hc hxs =>
    exact ⟨hc, .cons (fun h => by cases h) (fun _ h => by cases h) trivial hxs⟩
  | cons _ _ hx hxs => exact ⟨hx, hxs⟩

/-! White space is written in front of everything on a line. -/

theorem endsWord_of_blank (s : Str) (hb : isBlank b = true) : EndsWord (b :: s) := by
  unfold EndsWord wordSplit
  rw [if_pos (by simp [endsWord, hb])]

theorem closes_of_blank (s : Str) (hb : isBlank b = true) (depth : Nat) :
    closes depth (b :: s) = false := by
  unfold closes
  rw [if_pos (by rw [hb, Bool.true_or])]

theorem render_blank (hp : p.atLineStart = false) (ts : List Token) :
    ∃ b s, render p ts = b :: s ∧ isBlank b = true := by
  induction ts generalizing p with
  | nil => exact ⟨_, _, by rw [render, Printer.lineEnd, hp]; rfl, by decide⟩
  | cons t ts ih =>
    have hlead (s : Str) : (p.note t).lead ++ s = byte ' ' :: s := by
      have hnote : (p.note t).atLineStart = false := hp
      rw [Printer.lead, hnote]
      rfl
    have hend (s : Str) : (p.note t).lineEnd ++ s = byte '\n' :: s := by
      have hnote : (p.note t).atLineStart = false := hp
      rw [Printer.lineEnd, hnote]
      rfl
    rw [render_cons]
    cases t.lexeme with
    | eof => exact ih hp
    | newline | semicolon | closeBrace =>
      rw [renderLexeme, hend]
      exact ⟨_, _, rfl, by decide⟩
    | comment | word | openBrace =>
      rw [renderLexeme, hlead]
      exact ⟨_, _, rfl, by decide⟩

theorem lexFrom_indentation (p : Printer) (s : Str) :
    lexFrom true (p.indentation ++ s) = lexFrom true s := by
  unfold Printer.indentation
  rw [append_assoc]
  split
  · rw [singleton_append, lexFrom_blankLine, lexFrom_spaces]
  · rw [nil_append, lexFrom_spaces]

theorem lexFrom_lead (p : Printer) (s : Str) :
    lexFrom p.atLineStart (p.lead ++ s) = lexFrom p.atLineStart s := by
  unfold Printer.lead
  cases p.atLineStart with
  | true => exact lexFrom_indentation p s
  | false => exact lexFrom_space false s

theorem lexFrom_lineEnd (p : Printer) (s : Str) :
    lexFrom p.atLineStart (p.lineEnd ++ s) =
      (lexFrom true s).map (lineEnd p.atLineStart ++ ·) := by
  unfold Printer.lineEnd lineEnd
  cases p.atLineStart with
  | true => exact Option.map_id'.symm
  | false => exact lexFrom_newline s

theorem lexFrom_braceEnd (line : Nat) (h : Script (ts.map (·.lexeme)))
    (ih : ∀ us : List Token, us.length ≤ ts.length → Script (us.map (·.lexeme)) →
      ∃ ys, lexFrom true (render p us) = some ys ∧ Reflow true (us.map (·.lexeme)) ys) :
    (∃ b s, renderBraceEnd p line ts = b :: s ∧ isBlank b = true) ∧
      ((∃ ys, lexFrom false (renderBraceEnd p line ts) = some (.newline :: ys) ∧
          Reflow true (ts.map (·.lexeme)) ys) ∨
        ∃ c us ys, ts.map (·.lexeme) = .comment c :: us ∧
          lexFrom false (renderBraceEnd p line ts) = some (.comment c :: .newline :: ys) ∧
          Reflow true us ys) := by
  have hplain (hend : renderBraceEnd p line ts = byte '\n' :: render p ts) :
      (∃ b s, renderBraceEnd p line ts = b :: s ∧ isBlank b = true) ∧
        ∃ ys, lexFrom false (renderBraceEnd p line ts) = some (.newline :: ys) ∧
          Reflow true (ts.map (·.lexeme)) ys := by
    obtain ⟨ys, hlexes, hreflow⟩ := ih ts (Nat.le_refl _) h
    rw [hend, lexFrom_newline, hlexes]
    exact ⟨⟨_, _, rfl, by decide⟩, ys, rfl, hreflow⟩
  cases ts with
  | nil => exact (hplain rfl).imp_right .inl
  | cons u us =>
    cases hc : trailingComment line u with
    | none =>
      refine (hplain ?_).imp_right .inl
      simp only [renderBraceEnd, hc]
    | some c =>
      have hend : renderBraceEnd p line (u :: us) =
          byte ' ' :: (c ++ byte '\n' :: render p us) := by
        simp only [renderBraceEnd, hc]
      rw [map_cons, trailingComment_eq_some hc] at h
      obtain ⟨hcomment, hus, -⟩ := h.of_comment
      obtain ⟨ys, hlexes, hreflow⟩ := ih us (Nat.le_succ _) hus
      rw [hend, map_cons, trailingComment_eq_some hc, lexFrom_space, lexFrom_comment hcomment,
        hlexes]
      exact ⟨⟨_, _, rfl, by decide⟩, .inr ⟨c, _, ys, rfl, rfl, hreflow⟩⟩

/-- Induction on what is left to be written: a brace takes the comment behind it along. -/
@[elab_as_elim]
theorem render_induction {P : Printer → List Token → Prop}
    (step : ∀ p t ts, Script (t.lexeme :: ts.map (·.lexeme)) →
      (∀ q us, us.length ≤ ts.length → Script (us.map (·.lexeme)) → P q us) → P p (t :: ts))
    (p : Printer) (ts : List Token) (h : Script (ts.map (·.lexeme))) : P p ts := by
  induction hlen : ts.length using Nat.strongRecOn generalizing p ts with
  | ind len ih =>
    cases ts with
    | nil => cases h
    | cons t ts =>
      refine step p t ts h fun q us hus h => ih us.length ?_ q us h rfl
      rw [← hlen]
      exact Nat.lt_succ_of_le hus

theorem lexFrom_render (p : Printer) (h : Script (ts.map (·.lexeme))) :
    ∃ ys, lexFrom p.atLineStart (render p ts) = some ys ∧
      Reflow p.atLineStart (ts.map (·.lexeme)) ys := by
  refine render_induction ?_ p ts h
  intro p t ts h hlater
  have hlead := lexFrom_lead (p.note t)
  have hend := lexFrom_lineEnd (p.note t)
  rw [show (p.note t).atLineStart = p.atLineStart from rfl] at hlead hend
  rw [map_cons, render_cons]
  generalize t.lexeme = x at h ⊢
  cases x with
  | eof =>
    obtain rfl : ts = [] := map_eq_nil_iff.mp h.of_eof
    refine ⟨_, ?_, .eof⟩
    rw [renderLexeme, render, ← append_nil (Printer.lineEnd _), hend]
    rfl
  | newline | semicolon =>
    obtain ⟨ys, hlexes, hreflow⟩ :=
      hlater (p.note t).ended ts (Nat.le_refl _) (h.of_cons (fun h => by cases h)).2
    refine ⟨_, ?_, .separator (by simp) hreflow⟩
    rw [renderLexeme, hend]
    exact congrArg (Option.map _) hlexes
  | comment c =>
    obtain ⟨hcomment, hts, hnext⟩ := h.of_comment
    obtain ⟨ys, hlexes, hreflow⟩ := hlater (p.note t).started.ended ts (Nat.le_refl _) hts
    refine ⟨_, ?_, .comment hnext hreflow⟩
    rw [renderLexeme, hlead, lexFrom_comment hcomment]
    exact congrArg (Option.map _) hlexes
  | word text quoted =>
    obtain ⟨hsound, hts⟩ := h.of_cons fun h => by cases h
    obtain ⟨ys, hlexes, hreflow⟩ := hlater (p.note t).started ts (Nat.le_refl _) hts
    refine ⟨_, ?_, .word hreflow⟩
    obtain ⟨b, s, hrender, hb⟩ := render_blank (p := (p.note t).started) rfl ts
    rw [renderLexeme, hlead, lexFrom_formatWord hsound (hrender ▸ endsWord_of_blank s hb)]
    exact congrArg (Option.map _) hlexes
  | openBrace =>
    obtain ⟨-, hts⟩ := h.of_cons fun h => by cases h
    obtain ⟨⟨b, s, hblank, hb⟩, hbrace⟩ :=
      lexFrom_braceEnd (p := (p.note t).opened) t.line hts fun us hus h => hlater _ us hus h
    have hcloses := hblank ▸ closes_of_blank s hb 1
    rw [renderLexeme, hlead, lexFrom_openBrace hcloses]
    obtain ⟨ys, hlexes, hreflow⟩ | ⟨c, us, ys, hus, hlexes, hreflow⟩ := hbrace
    · exact ⟨_, congrArg (Option.map _) hlexes, .openBrace hreflow⟩
    · rw [hus]
      exact ⟨_, congrArg (Option.map _) hlexes, .openComment hreflow⟩
  | closeBrace =>
    obtain ⟨-, hts⟩ := h.of_cons fun h => by cases h
    obtain ⟨-, hbrace⟩ := lexFrom_braceEnd (p := (p.note t).closing.started.ended) t.line hts
      fun us hus h => hlater _ us hus h
    rw [renderLexeme, hend, lexFrom_indentation, lexFrom_closeBrace]
    obtain ⟨ys, hlexes, hreflow⟩ | ⟨c, us, ys, hus, hlexes, hreflow⟩ := hbrace
    · rw [hlexes]
      exact ⟨_, rfl, .closeBrace hreflow⟩
    · rw [hus, hlexes]
      exact ⟨_, rfl, .closeComment hreflow⟩

/-! ## Both ends of it -/

def Terminated (s : Str) : Prop := ∃ w x, s = w ++ [x, byte '\n'] ∧ x ≠ byte '\n'

theorem Terminated.append (h : Terminated s) (u : Str) : Terminated (u ++ s) := by
  obtain ⟨w, x, rfl, hx⟩ := h
  exact ⟨u ++ w, x, (append_assoc ..).symm, hx⟩

theorem terminated_line {u : Str} {x : UInt8} (hx : x ≠ byte '\n') (h : s = [] ∨ Terminated s) :
    Terminated (u ++ x :: byte '\n' :: s) := by
  obtain rfl | h := h
  · exact ⟨u, x, rfl, hx⟩
  · exact (h.append [x, byte '\n']).append u

theorem IsComment.line_eq (hc : IsComment c) : ∃ u x, c = u ++ [x] ∧ x ≠ byte '\n' := by
  have hne : c ≠ [] := by
    rintro rfl
    cases hc.hash
  refine ⟨c.dropLast, c.getLast hne, (dropLast_append_getLast hne).symm, ?_⟩
  intro hlast
  have hin := hc.line _ (getLast_mem hne)
  rw [hlast] at hin
  exact absurd hin (by decide)

theorem formatWord_line_eq (text : Str) (quoted : Bool) :
    ∃ u x, formatWord text quoted = u ++ [x] ∧ x ≠ byte '\n' := by
  unfold formatWord
  split
  · exact ⟨byte '"' :: escapeQuotes text, byte '"', rfl, by decide⟩
  case isFalse h =>
    obtain ⟨-, hneeds⟩ := or_eq_false_iff.mp (eq_false_iff.mpr h)
    obtain ⟨hne, -, -, hall⟩ := needsQuoting_eq_false hneeds
    refine ⟨text.dropLast, text.getLast hne, (dropLast_append_getLast hne).symm, ?_⟩
    intro hlast
    have hblank := (hall _ (getLast_mem hne)).1
    rw [hlast] at hblank
    exact absurd hblank (by decide)

theorem terminated_braceEnd {line : Nat} {x : UInt8} (hx : x ≠ byte '\n')
    (h : Script (ts.map (·.lexeme)))
    (ih : ∀ us : List Token, us.length ≤ ts.length → Script (us.map (·.lexeme)) →
      render p us = [] ∨ Terminated (render p us)) : Terminated (x :: renderBraceEnd p line ts) := by
  cases ts with
  | nil => cases h
  | cons u us =>
    cases hc : trailingComment line u with
    | none =>
      simp only [renderBraceEnd, hc]
      exact terminated_line (u := []) hx (ih _ (Nat.le_refl _) h)
    | some c =>
      simp only [renderBraceEnd, hc]
      rw [map_cons, trailingComment_eq_some hc] at h
      obtain ⟨hcomment, hus, -⟩ := h.of_comment
      obtain ⟨v, y, rfl, hy⟩ := hcomment.line_eq
      have hline := terminated_line (u := x :: byte ' ' :: v) hy (ih us (Nat.le_succ _) hus)
      simpa only [append_assoc, cons_append, nil_append] using hline

/-- What is written from here on ends with the end of one line, at the beginning of a line or not. -/
def Ended (start : Bool) (s : Str) : Prop :=
  if start then s = [] ∨ Terminated s else ∀ x, x ≠ byte '\n' → Terminated (x :: s)

theorem Terminated.ended (hs : Terminated s) (start : Bool) : Ended start s := by
  rw [Ended]
  split
  · exact .inr hs
  · exact fun x _ => hs.append [x]

theorem ended_lineEnd (p : Printer) (hs : s = [] ∨ Terminated s) :
    Ended p.atLineStart (p.lineEnd ++ s) := by
  rw [Printer.lineEnd]
  cases p.atLineStart with
  | true => exact hs
  | false => exact fun x hx => terminated_line (u := []) hx hs

theorem render_terminated (p : Printer) (h : Script (ts.map (·.lexeme))) :
    Ended p.atLineStart (render p ts) := by
  refine render_induction ?_ p ts h
  intro p t ts h ih
  have hlater (q : Printer) (hq : q.atLineStart = true) (us : List Token)
      (hus : us.length ≤ ts.length) (h : Script (us.map (·.lexeme))) :
      render q us = [] ∨ Terminated (render q us) := by
    have hih := ih q us hus h
    rwa [Ended, if_pos hq] at hih
  rw [render_cons]
  generalize t.lexeme = x at h ⊢
  cases x with
  | eof =>
    obtain rfl : ts = [] := map_eq_nil_iff.mp h.of_eof
    rw [renderLexeme, render, ← append_nil (Printer.lineEnd _)]
    exact ended_lineEnd (p.note t) (.inl rfl)
  | newline | semicolon =>
    exact ended_lineEnd (p.note t)
      (hlater (p.note t).ended rfl ts (Nat.le_refl _) (h.of_cons fun h => by cases h).2)
  | comment c =>
    obtain ⟨hcomment, hts, -⟩ := h.of_comment
    rw [renderLexeme]
    obtain ⟨u, x, rfl, hx⟩ := hcomment.line_eq
    rw [append_assoc]
    exact ((terminated_line hx
      (hlater (p.note t).started.ended rfl ts (Nat.le_refl _) hts)).append _).ended _
  | word text quoted =>
    obtain ⟨u, x, hword, hx⟩ := formatWord_line_eq text quoted
    have hih := ih (p.note t).started ts (Nat.le_refl _) (h.of_cons fun h => by cases h).2
    rw [renderLexeme, hword, append_assoc]
    exact (((hih x hx).append u).append _).ended _
  | openBrace =>
    exact ((terminated_braceEnd (by decide) (h.of_cons fun h => by cases h).2
      (hlater (p.note t).opened rfl)).append _).ended _
  | closeBrace =>
    exact (((terminated_braceEnd (by decide) (h.of_cons fun h => by cases h).2
      (hlater (p.note t).closing.started.ended rfl)).append _).append _).ended _

theorem format_out (h : Script (ts.map (·.lexeme))) :
    (if (trimNewlines (render newPrinter ts)).isEmpty then []
      else trimNewlines (render newPrinter ts) ++ [byte '\n']) = render newPrinter ts := by
  have hrender := render_terminated newPrinter h
  obtain hrender | ⟨w, x, hrender, hx⟩ := hrender
  · rw [hrender]
    rfl
  have htrim : trimNewlines (render newPrinter ts) = w ++ [x] := by
    rw [hrender, trimNewlines, show w ++ [x, byte '\n'] = w ++ [x] ++ [byte '\n'] by simp,
      rdropWhile_concat_pos _ _ _ (by decide),
      rdropWhile_concat_neg _ _ _ (by simpa using hx)]
  rw [htrim, hrender]
  simp

/-- The first thing that is written is a bare word that begins with a byte order mark. -/
def bomLed : List Lexeme → Bool
  | .newline :: xs => bomLed xs
  | .semicolon :: xs => bomLed xs
  | .word text quoted :: _ => !quoted && !needsQuoting text && hasPrefix text bom
  | _ => false

theorem hasPrefix_bom_append {t : Str} (hb : isBlank b = true)
    (h : hasPrefix (t ++ b :: s) bom = true) : hasPrefix t bom = true := by
  have hne {c : UInt8} (hc : isBlank c = false) : c ≠ b := by
    rintro rfl
    rw [hb] at hc
    cases hc
  cases t with
  | nil =>
    simp only [hasPrefix, bom, nil_append, isPrefixOf, and_eq_true, beq_iff_eq] at h
    exact absurd h.1 (hne (by decide))
  | cons x t =>
    cases t with
    | nil =>
      simp only [hasPrefix, bom, cons_append, nil_append, isPrefixOf,
        and_eq_true, beq_iff_eq] at h
      exact absurd h.2.1 (hne (by decide))
    | cons y t =>
      cases t with
      | nil =>
        simp only [hasPrefix, bom, cons_append, nil_append, isPrefixOf,
          and_eq_true, beq_iff_eq] at h
        exact absurd h.2.2.1 (hne (by decide))
      | cons z t =>
        simpa only [hasPrefix, bom, cons_append, isPrefixOf] using h

theorem render_bom (hstart : p.atLineStart = true) (hwrote : p.wroteAny = false) (hdepth : p.depth = 0)
    (h : Script (ts.map (·.lexeme))) (hbom : bomLed (ts.map (·.lexeme)) = false) :
    hasPrefix (render p ts) bom = false := by
  induction ts generalizing p with
  | nil => cases h
  | cons t ts ih =>
    have hindent (q : Printer) (hq : q.wroteAny = false) (hq' : q.depth = 0) :
        q.indentation = [] := by
      rw [Printer.indentation, hq, hq', Bool.and_false]
      rfl
    have hlead : (p.note t).lead = [] := by
      rw [Printer.lead, show (p.note t).atLineStart = true from hstart]
      exact hindent _ hwrote hdepth
    have hend : (p.note t).lineEnd = [] := by
      rw [Printer.lineEnd, show (p.note t).atLineStart = true from hstart]
      rfl
    rw [map_cons] at h hbom
    rw [render_cons]
    generalize t.lexeme = x at h hbom ⊢
    cases x with
    | eof =>
      obtain rfl : ts = [] := map_eq_nil_iff.mp h.of_eof
      rw [renderLexeme, render, hend]
      rfl
    | newline | semicolon =>
      rw [renderLexeme, hend]
      exact ih rfl hwrote hdepth (h.of_cons fun h => by cases h).2 hbom
    | comment c =>
      obtain ⟨c', rfl⟩ := head?_eq_some_iff.mp h.of_comment.1.hash
      rw [renderLexeme, hlead]
      rfl
    | openBrace =>
      rw [renderLexeme, hlead]
      rfl
    | closeBrace =>
      have hdepth' : (p.note t).closing.depth = 0 := by
        change p.depth - 1 = 0
        rw [hdepth]
      rw [renderLexeme, hend, hindent (p.note t).closing hwrote hdepth']
      rfl
    | word text quoted =>
      obtain ⟨b, s, hrender, hb⟩ := render_blank (p := (p.note t).started) rfl ts
      rw [renderLexeme, hlead, formatWord]
      split
      case isTrue => rfl
      case isFalse hquoted =>
        obtain ⟨hq, hneeds⟩ := or_eq_false_iff.mp (eq_false_iff.mpr hquoted)
        rw [hrender]
        by_contra hprefix
        have hprefix := hasPrefix_bom_append hb (not_eq_false _ ▸ hprefix)
        simp [bomLed, hq, hneeds, hprefix] at hbom

theorem format_lexes {src : Str} {f : File} (hxs : lexemes src = some xs) (hf : parse src = some f)
    (hbom : bomLed xs = false) :
    ∃ out ys, format src = some out ∧ lexemes out = some ys ∧ Reflow true xs ys := by
  obtain ⟨ts, hts, rfl⟩ := Option.map_eq_some_iff.mp hxs
  have hscript := (tokenize_eq_some.mp hts).script
  obtain ⟨ys, hlexes, hreflow⟩ := lexFrom_render newPrinter hscript
  refine ⟨render newPrinter ts, ys, ?_, ?_, hreflow⟩
  · rw [format, hts, hf]
    exact congrArg some (format_out hscript)
  · have hnot := render_bom (p := newPrinter) rfl rfl rfl hscript hbom
    have hsrc : (newLexer (render newPrinter ts)).src = render newPrinter ts := by
      rw [newLexer, hnot]
      rfl
    rw [lexemes_eq_lexFrom, hsrc]
    exact hlexes

end Cadishfile

end Cadish
