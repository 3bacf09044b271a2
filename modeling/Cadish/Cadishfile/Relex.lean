import Cadish.Cadishfile.Lexer
import Mathlib.Data.List.DropRight

/-!
# Reading a text back

A text that is written in chunks is read back chunk by chunk (`lexFrom`). Every lexeme of a source
is `Sound`, so it can be written again, in its own form or in quotes.
-/

namespace Cadish

open List Str

namespace Cadishfile

variable {b : UInt8} {depth : Nat} {s t rest s' : Str} {start : Bool} {ts : List Token}

/-! ## The bytes of a word -/

/-- A text that can stand as a bare word, or as the rest of one behind so many open braces: white
space and control characters do not occur, semicolons occur inside of braces alone, and the braces
are balanced. -/
def isBare : Nat → Str → Bool
  | 0, [] => true
  | _ + 1, [] => false
  | 0, b :: s =>
    !isBlank b && !isDisallowedControl b && b != byte ';' && b != byte '}' &&
      isBare (if b = byte '{' then 1 else 0) s
  | depth + 1, b :: s =>
    !isBlank b && !isDisallowedControl b &&
      isBare (if b = byte '{' then depth + 2 else if b = byte '}' then depth else depth + 1) s

theorem isBare_cons (h : isBare depth (b :: s) = true) :
    isBlank b = false ∧ isDisallowedControl b = false := by
  cases depth with
  | zero =>
    simp only [isBare, Bool.and_eq_true, Bool.not_eq_true'] at h
    exact h.1.1.1
  | succ depth =>
    simp only [isBare, Bool.and_eq_true, Bool.not_eq_true'] at h
    exact h.1

theorem endsWord_eq_false (h : endsWord b s = false) :
    isBlank b = false ∧ isDisallowedControl b = false ∧ b ≠ byte ';' ∧ b ≠ byte '}' ∧
      (b = byte '\\' → continuationLen s = 0) ∧ (b = byte '{' → closes 1 s = true) := by
  simpa [endsWord, and_assoc] using h

theorem closes_of_not_endsWord (h : endsWord b s = false) :
    (if b = byte '{' then 1 else 0) = 0 ∨ closes (if b = byte '{' then 1 else 0) s = true := by
  obtain ⟨-, -, -, -, -, hopen⟩ := endsWord_eq_false h
  split
  next hb => exact .inr (hopen hb)
  next => exact .inl rfl

theorem closes_succ (h : closes (depth + 1) (b :: s) = true) :
    isBlank b = false ∧ isDisallowedControl b = false ∧
      ((if b = byte '{' then depth + 2 else if b = byte '}' then depth else depth + 1) = 0 ∨
        closes (if b = byte '{' then depth + 2 else if b = byte '}' then depth else depth + 1) s
          = true) := by
  rw [closes] at h
  by_cases hstop : (isBlank b || isDisallowedControl b) = true
  · rw [if_pos hstop] at h
    cases h
  rw [if_neg hstop] at h
  obtain ⟨hblank, hcontrol⟩ := Bool.or_eq_false_iff.mp (Bool.eq_false_iff.mpr hstop)
  refine ⟨hblank, hcontrol, ?_⟩
  split
  next hopen => exact .inr (by rwa [if_pos hopen] at h)
  next hopen =>
    rw [if_neg hopen] at h
    split
    next hclose =>
      rw [if_pos hclose, Bool.or_eq_true, decide_eq_true_eq] at h
      exact h.imp_left fun h => by omega
    next hclose => exact .inr (by rwa [if_neg hclose] at h)

theorem isBare_wordSplit (h : depth = 0 ∨ closes depth s = true) :
    isBare depth (wordSplit depth s).1 = true := by
  induction s generalizing depth with
  | nil =>
    obtain rfl | h := h
    · rfl
    · cases depth <;> cases h
  | cons b s ih =>
    cases depth with
    | zero =>
      unfold wordSplit
      by_cases hends : endsWord b s = true
      · rw [if_pos hends]
        rfl
      rw [if_neg hends]
      have hends := Bool.eq_false_iff.mpr hends
      obtain ⟨hblank, hcontrol, hsemi, hclose, -, -⟩ := endsWord_eq_false hends
      simp only [isBare, hblank, hcontrol, ih (closes_of_not_endsWord hends), bne_iff_ne.mpr hsemi,
        bne_iff_ne.mpr hclose, Bool.not_false, Bool.and_self]
    | succ depth =>
      obtain ⟨hblank, hcontrol, hrest⟩ := closes_succ (h.resolve_left (Nat.succ_ne_zero depth))
      unfold wordSplit isBare
      simp only [hblank, hcontrol]
      exact ih hrest

theorem closes_of_isBare (u : Str) (h : isBare (depth + 1) s = true) :
    closes (depth + 1) (s ++ u) = true := by
  induction s generalizing depth with
  | nil => cases h
  | cons b s ih =>
    obtain ⟨hblank, hcontrol⟩ := isBare_cons h
    simp only [isBare, hblank, hcontrol] at h
    rw [cons_append]
    unfold closes
    rw [if_neg (by rw [hblank, hcontrol]; exact Bool.false_ne_true)]
    by_cases hopen : b = byte '{'
    · rw [if_pos hopen] at h ⊢
      exact ih h
    rw [if_neg hopen] at h ⊢
    by_cases hclose : b = byte '}'
    · rw [if_pos hclose] at h ⊢
      cases depth with
      | zero => rfl
      | succ depth =>
        rw [Nat.add_sub_cancel, ih h, Bool.or_true]
    · rw [if_neg hclose] at h ⊢
      exact ih h

theorem exists_of_continuationLen (h : continuationLen s ≠ 0) :
    ∃ t, s = byte '\n' :: t ∨ s = byte '\r' :: byte '\n' :: t := by
  rw [continuationLen] at h
  split at h
  next hlf => exact (head?_eq_some_iff.mp hlf).imp fun _ => .inl
  next =>
    split at h
    next hcr =>
      obtain ⟨t, rfl⟩ := head?_eq_some_iff.mp hcr.1
      exact (head?_eq_some_iff.mp hcr.2).imp fun _ ht => .inr (congrArg (_ :: ·) ht)
    next => exact absurd rfl h

theorem continuationLen_isBare (u : Str) (h : isBare depth s = true) (hs : s ≠ []) :
    continuationLen (s ++ u) = 0 := by
  cases s with
  | nil => exact absurd rfl hs
  | cons b s =>
    obtain ⟨hblank, -⟩ := isBare_cons h
    have hn : b ≠ byte '\n' := by
      rintro rfl
      cases hblank
    have hr : b ≠ byte '\r' := by
      rintro rfl
      cases hblank
    simp [continuationLen, hn, hr]

/-- The text ends every word in front of it that does not end in a backslash. -/
def EndsWord (u : Str) : Prop := wordSplit 0 u = ([], u)

theorem endsWord_isBare (u : Str) (h : isBare 0 (b :: s) = true)
    (hlast : (b :: s).getLast? ≠ some (byte '\\')) : endsWord b (s ++ u) = false := by
  obtain ⟨hblank, hcontrol⟩ := isBare_cons h
  simp only [isBare, Bool.and_eq_true, bne_iff_ne] at h
  obtain ⟨⟨⟨-, hsemi⟩, hclose⟩, hrest⟩ := h
  have hcont : b = byte '\\' → continuationLen (s ++ u) = 0 := by
    intro hb
    refine continuationLen_isBare u hrest ?_
    rintro rfl
    exact hlast (by rw [hb]; rfl)
  have hopen : b = byte '{' → closes 1 (s ++ u) = true := by
    intro hb
    rw [if_pos hb] at hrest
    exact closes_of_isBare u hrest
  simpa [endsWord, and_assoc] using ⟨hblank, hcontrol, hsemi, hclose, hcont, hopen⟩

theorem wordSplit_isBare {u : Str} (h : isBare depth s = true) (hu : EndsWord u)
    (hlast : s.getLast? ≠ some (byte '\\')) : wordSplit depth (s ++ u) = (s, u) := by
  induction s generalizing depth with
  | nil =>
    cases depth with
    | zero => exact hu
    | succ depth => cases h
  | cons b s ih =>
    have hlast' : s.getLast? ≠ some (byte '\\') := by
      intro h
      apply hlast
      rw [getLast?_cons, h]
      rfl
    rw [cons_append]
    cases depth with
    | zero =>
      have hends := endsWord_isBare u h hlast
      simp only [isBare, Bool.and_eq_true] at h
      unfold wordSplit
      rw [if_neg (by rw [hends]; exact Bool.false_ne_true), ih h.2 hlast']
    | succ depth =>
      simp only [isBare, Bool.and_eq_true] at h
      unfold wordSplit
      dsimp only
      rw [ih h.2 hlast']

/-! ## Bytes that are not ASCII -/

theorem ne_of_high {c : UInt8} (hb : 0x80 ≤ b) (hc : c < 0x80) : b ≠ c := by
  rintro rfl
  exact absurd hb (UInt8.not_le.mpr hc)

theorem isBlank_high (hb : 0x80 ≤ b) : isBlank b = false := by
  have hspace := ne_of_high (c := byte ' ') hb (by decide)
  have htab := ne_of_high (c := byte '\t') hb (by decide)
  have hnewline := ne_of_high (c := byte '\n') hb (by decide)
  have hreturn := ne_of_high (c := byte '\r') hb (by decide)
  simp [isBlank, hspace, htab, hnewline, hreturn]

theorem isDisallowedControl_high (hb : 0x80 ≤ b) : isDisallowedControl b = false := by
  have hlow : ¬ b < 0x20 := UInt8.not_lt.mpr (UInt8.le_trans (by decide) hb)
  have hdel : b ≠ 0x7f := ne_of_high hb (by decide)
  simp [isDisallowedControl, hlow, hdel]

theorem isBare_high {u : Str} (hu : ∀ b ∈ u, 0x80 ≤ b) (depth : Nat) (s : Str) :
    isBare depth (u ++ s) = isBare depth s := by
  induction u with
  | nil => rfl
  | cons b u ih =>
    obtain ⟨hb, hu⟩ := forall_mem_cons.mp hu
    have hopen := ne_of_high (c := byte '{') hb (by decide)
    have hclose := ne_of_high (c := byte '}') hb (by decide)
    have hsemi := ne_of_high (c := byte ';') hb (by decide)
    rw [← ih hu]
    cases depth <;>
      simp [isBare, isBlank_high hb, isDisallowedControl_high hb, hopen, hclose, hsemi]

theorem isBare_sameAscii (h : SameAscii s t) (hs : isBare depth s = true) : isBare depth t = true := by
  induction h generalizing depth with
  | nil => exact hs
  | ascii _ _ ih =>
    cases depth <;> simp only [isBare, Bool.and_eq_true] at hs ⊢ <;> exact ⟨hs.1, ih hs.2⟩
  | @high b c u s t hb hu _ ih =>
    rw [isBare_high hu]
    refine ih ?_
    rwa [← isBare_high (u := [b]) (by simpa using hb)]

def Printable (s : Str) : Prop := ∀ b ∈ s, isDisallowedControl b = false

instance (s : Str) : Decidable (Printable s) :=
  inferInstanceAs (Decidable (∀ b ∈ s, isDisallowedControl b = false))

theorem printable_nil : Printable [] := fun b hb => by cases hb

theorem printable_cons :
    Printable (b :: s) ↔ isDisallowedControl b = false ∧ Printable s := forall_mem_cons

theorem printable_sameAscii (h : SameAscii s t) (hs : Printable s) : Printable t := by
  induction h with
  | nil => exact hs
  | ascii _ _ ih =>
    obtain ⟨hb, hs⟩ := printable_cons.mp hs
    exact printable_cons.mpr ⟨hb, ih hs⟩
  | high _ hu _ ih =>
    intro d hd
    obtain hd | hd := mem_append.mp hd
    · exact isDisallowedControl_high (hu d hd)
    · exact ih (printable_cons.mp hs).2 d hd

theorem isBare_mem (h : isBare depth s = true) (hb : b ∈ s) :
    isBlank b = false ∧ isDisallowedControl b = false := by
  induction s generalizing depth with
  | nil => cases hb
  | cons c s ih =>
    obtain rfl | hb := mem_cons.mp hb
    · exact isBare_cons h
    · cases depth <;> simp only [isBare, Bool.and_eq_true] at h <;> exact ih h.2 hb

theorem isBare_printable (h : isBare depth s = true) : Printable s := fun _ hb => (isBare_mem h hb).2

theorem sameAscii_runes (s : Str) : SameAscii s (toValidRunes 0 s) :=
  sameAscii_toValidRunes fun c hc => by cases hc

/-! ## What is read -/

/-- A comment with its `#`, without white space at its end. -/
structure IsComment (c : Str) : Prop where
  hash : c.head? = some (byte '#')
  line : ∀ b ∈ c, inComment b = true
  trimmed : trimLineEnd c = c

/-- What can be written again, in its own form or in quotes. -/
def Lexeme.Sound : Lexeme → Prop
  | .word t quoted => toValidRunes 0 t = t ∧ Printable t ∧ (quoted = false → isBare 0 t = true)
  | .comment c => IsComment c
  | _ => True

theorem Quoted.printable (h : Quoted s t rest) : Printable t := by
  induction h with
  | close => exact printable_nil
  | @escaped e _ _ _ he _ ih =>
    refine printable_cons.mpr ⟨?_, ih⟩
    rcases he with rfl | rfl <;> rfl
  | backslash hcontrol _ _ ih => exact printable_cons.mpr ⟨by decide, printable_cons.mpr ⟨hcontrol, ih⟩⟩
  | plain hcontrol _ _ _ ih => exact printable_cons.mpr ⟨hcontrol, ih⟩

theorem isComment_trimLineEnd (s : Str) :
    IsComment (trimLineEnd ((byte '#' :: s).takeWhile inComment)) := by
  have hhash : (byte '#' :: s).takeWhile inComment = byte '#' :: s.takeWhile inComment :=
    takeWhile_cons_of_pos (by decide)
  rw [hhash]
  set c := byte '#' :: s.takeWhile inComment with hc
  have hprefix : trimLineEnd c <+: c := rdropWhile_prefix _ _
  have hne : trimLineEnd c ≠ [] := by
    intro h
    have hall := rdropWhile_eq_nil_iff.mp h
    exact absurd (hall (byte '#') (mem_cons_self ..)) (by decide)
  refine ⟨?_, fun b hb => ?_, rdropWhile_idempotent _ _⟩
  · obtain ⟨u, hu⟩ := hprefix
    cases htrim : trimLineEnd c with
    | nil => exact absurd htrim hne
    | cons b t =>
      rw [htrim, cons_append, cons.injEq] at hu
      rw [hu.1]
      rfl
  · have hmem : b ∈ (byte '#' :: s).takeWhile inComment := by
      exact hprefix.subset hb
    exact mem_takeWhile_imp hmem

variable {x : Lexeme}

theorem Emits.sound (h : Emits s x s' start) : x.Sound := by
  cases h with
  | eof | newline | openBrace | closeBrace | semicolon => exact trivial
  | comment => exact isComment_trimLineEnd _
  | @quoted s r h =>
    exact ⟨toValidRunes_idem _, printable_sameAscii (sameAscii_runes _) (quotedSplit_eq_some.mp h).printable,
      fun h => by cases h⟩
  | @word b s h =>
    have hbare : isBare 0 (toValidRunes 0 (wordSplit 0 (b :: s)).1) = true :=
      isBare_sameAscii (sameAscii_runes _) (isBare_wordSplit (.inl rfl))
    exact ⟨toValidRunes_idem _, isBare_printable hbare, fun _ => hbare⟩

/-- The lexemes of a source: they can all be written again, a comment goes to the end of its line,
and the end of the file is at the end. -/
inductive Script : List Lexeme → Prop
  | eof : Script [.eof]
  | lastComment {c : Str} (hc : IsComment c) : Script [.comment c, .eof]
  | comment {c : Str} {xs : List Lexeme} (hc : IsComment c) (hxs : Script xs) :
    Script (.comment c :: .newline :: xs)
  | cons {x : Lexeme} {xs : List Lexeme} (heof : x ≠ .eof) (hcomment : ∀ c, x ≠ .comment c)
    (hx : x.Sound) (hxs : Script xs) : Script (x :: xs)

theorem Emits.after_comment {c : Str} (h : Emits s (.comment c) s' start) :
    start = false ∧ ∀ b ∈ s'.head?, inComment b = false := by
  cases h with
  | @comment s =>
    refine ⟨rfl, fun b hb => ?_⟩
    have hnot := head?_dropWhile_not inComment (byte '#' :: s)
    rw [Option.mem_def.mp hb] at hnot
    exact hnot

variable {l : Lexer}

theorem Lexer.next_of_comment {r : Token × Lexer} (hstart : l.atLineStart = false)
    (hsrc : ∀ b ∈ l.src.head?, inComment b = false) (h : l.next = some r) :
    r.1.lexeme = .eof ∨ r.1.lexeme = .newline := by
  obtain ⟨src, line, pending, start⟩ := l
  obtain rfl : start = false := hstart
  cases src with
  | nil =>
    cases h
    exact .inl rfl
  | cons b s =>
    have hb : inComment b = false := hsrc b rfl
    by_cases hnewline : b = byte '\n'
    · subst hnewline
      cases h
      exact .inr rfl
    -- what ends a comment within a line is refused
    have hcontrol : isDisallowedControl b = true := by
      simpa [inComment, hnewline] using hb
    have hblank : isBlank b = false := by
      by_contra hblank
      simp only [isBlank, Bool.not_eq_false, Bool.or_eq_true, beq_iff_eq] at hblank
      obtain ((rfl | rfl) | rfl) | rfl := hblank <;> exact absurd hcontrol (by decide)
    have hescape : b ≠ byte '\\' := by
      rintro rfl
      exact absurd hcontrol (by decide)
    simp [next, skipBlanks, nextToken, hblank, hescape, hcontrol] at h

theorem Tokens.script (h : Tokens l ts) : Script (ts.map (·.lexeme)) := by
  induction h with
  | eof _ ht =>
    rw [map_singleton, ht]
    exact .eof
  | @cons l l' t ts h ht hts ih =>
    obtain ⟨s, -, hemits⟩ := Lexer.next_emits h
    by_cases hcomment : ∃ c, t.lexeme = .comment c
    · obtain ⟨c, hc⟩ := hcomment
      rw [map_cons, hc]
      have hsound : IsComment c := by
        have hsound := hemits.sound
        rwa [hc] at hsound
      have hend := Emits.after_comment (hc ▸ hemits)
      cases hts with
      | eof h' ht' =>
        rw [map_singleton, ht']
        exact .lastComment hsound
      | cons h' ht' hts' =>
        obtain heof | hnewline := Lexer.next_of_comment hend.1 hend.2 h'
        · exact absurd heof ht'
        · rw [map_cons, hnewline] at ih ⊢
          cases ih with
          | cons _ _ _ hxs => exact .comment hsound hxs
    · exact .cons ht (fun c hc => hcomment ⟨c, hc⟩) hemits.sound ih

/-! ## The lexemes as a function of the source -/

theorem Emits.nextToken (h : Emits s x s' start) (hl : l.src = s) :
    ∃ t l', l.nextToken = some (t, l') ∧ t.lexeme = x ∧ l'.src = s' ∧ l'.atLineStart = start := by
  have hemit (hstart : start = false) (hnext : l.nextToken = some (l.emit x s')) :
      ∃ t l', l.nextToken = some (t, l') ∧ t.lexeme = x ∧ l'.src = s' ∧
        l'.atLineStart = start :=
    ⟨_, _, hnext, rfl, rfl, hstart.symm⟩
  cases h with
  | eof =>
    refine hemit rfl ?_
    simp only [Lexer.nextToken, hl]
  | closeBrace | comment =>
    refine hemit rfl ?_
    simp only [Lexer.nextToken, hl]
    rfl
  | newline =>
    refine ⟨⟨.newline, l.line, 0⟩, ⟨s', l.line + 1, l.pendingBlank, true⟩, ?_, rfl, rfl, rfl⟩
    simp only [Lexer.nextToken, hl]
    rfl
  | semicolon =>
    refine ⟨⟨.semicolon, l.line, 0⟩, ⟨s', l.line, l.pendingBlank, false⟩, ?_, rfl, rfl, rfl⟩
    simp only [Lexer.nextToken, hl]
    rfl
  | openBrace h =>
    refine hemit rfl ?_
    simp only [Lexer.nextToken, hl, h]
    rfl
  | quoted h =>
    refine hemit rfl ?_
    simp only [Lexer.nextToken, hl, h]
    rfl
  | @word b s h hcomment hquote =>
    obtain ⟨hblank, hcontrol, hsemi, hclose, -, hopen⟩ := endsWord_eq_false h
    have hnewline : b ≠ byte '\n' := by
      rintro rfl
      cases hblank
    have hbrace : ¬ (b = byte '{' ∧ closes 1 s = false) := by
      rintro ⟨hb, hcloses⟩
      rw [hopen hb] at hcloses
      cases hcloses
    refine hemit rfl ?_
    simp only [Lexer.nextToken, hl, hcontrol, hnewline, hcomment, if_neg hbrace, hclose, hsemi,
      hquote, if_false, Bool.false_eq_true, Lexer.lexWord]

/-- The lexers differ in what they have counted, at most. -/
def Lexer.Similar (l₁ l₂ : Lexer) : Prop := l₁.src = l₂.src ∧ l₁.atLineStart = l₂.atLineStart

theorem skipBlanks_similar (n line₁ pending₁ line₂ pending₂ : Nat) (start : Bool) (s : Str) :
    (skipBlanks n line₁ pending₁ start s).Similar (skipBlanks n line₂ pending₂ start s) := by
  induction s generalizing n line₁ pending₁ line₂ pending₂ with
  | nil => cases n <;> exact ⟨rfl, rfl⟩
  | cons b s ih =>
    cases n with
    | succ n => exact ih _ _ _ _ _
    | zero =>
      unfold skipBlanks
      split
      · split
        · exact ih _ _ _ _ _
        · exact ⟨rfl, rfl⟩
      split
      · exact ih _ _ _ _ _
      · split
        · exact ih _ _ _ _ _
        · exact ⟨rfl, rfl⟩

variable {l₁ l₂ : Lexer}

theorem Lexer.Similar.next {l₁' : Lexer} {t₁ : Token} (h : l₁.Similar l₂)
    (hnext : l₁.next = some (t₁, l₁')) :
    ∃ t₂ l₂', l₂.next = some (t₂, l₂') ∧ t₂.lexeme = t₁.lexeme ∧ l₁'.Similar l₂' := by
  obtain ⟨src, line₁, pending₁, start⟩ := l₁
  obtain ⟨src₂, line₂, pending₂, start₂⟩ := l₂
  obtain ⟨rfl, rfl⟩ : src = src₂ ∧ start = start₂ := h
  obtain ⟨hsrc, -⟩ := skipBlanks_similar 0 line₁ pending₁ line₂ pending₂ start src
  obtain ⟨hready, -⟩ := skipBlanks_ready 0 line₁ pending₁ start src
  obtain ⟨t₂, l₂', hnext₂, hlexeme, hsrc', hstart'⟩ :=
    (Lexer.nextToken_emits hready hnext).nextToken hsrc.symm
  exact ⟨t₂, l₂', hnext₂, hlexeme, hsrc'.symm, hstart'.symm⟩

theorem Tokens.similar (h : Tokens l₁ ts) (hsimilar : l₁.Similar l₂) :
    ∃ ts', Tokens l₂ ts' ∧ ts'.map (·.lexeme) = ts.map (·.lexeme) := by
  induction h generalizing l₂ with
  | eof hnext ht =>
    obtain ⟨t₂, l₂', hnext₂, hlexeme, -⟩ := hsimilar.next hnext
    exact ⟨[t₂], .eof hnext₂ (hlexeme.trans ht), by rw [map_singleton, hlexeme]; rfl⟩
  | cons hnext ht _ ih =>
    obtain ⟨t₂, l₂', hnext₂, hlexeme, hsimilar'⟩ := hsimilar.next hnext
    obtain ⟨ts', hts', hxs⟩ := ih hsimilar'
    exact ⟨t₂ :: ts', .cons hnext₂ (fun h => ht (hlexeme.symm.trans h)) hts',
      by rw [map_cons, hlexeme, hxs]; rfl⟩

/-- The lexemes of a source from the beginning of a line on, or from elsewhere. -/
def lexFrom (start : Bool) (src : Str) : Option (List Lexeme) :=
  (tokenizeFrom (src.length + 1) ⟨src, 1, 0, start⟩).map (·.map (·.lexeme))

theorem lexFrom_eq_some {xs : List Lexeme} :
    lexFrom l.atLineStart l.src = some xs ↔ ∃ ts, Tokens l ts ∧ ts.map (·.lexeme) = xs := by
  unfold lexFrom
  rw [Option.map_eq_some_iff]
  constructor
  · rintro ⟨ts, hts, rfl⟩
    exact ((tokenizeFrom_eq_some (Nat.lt_succ_self _)).mp hts).similar ⟨rfl, rfl⟩
  · rintro ⟨ts, hts, rfl⟩
    obtain ⟨ts', hts', hxs⟩ := @Tokens.similar ts l ⟨l.src, 1, 0, l.atLineStart⟩ hts ⟨rfl, rfl⟩
    exact ⟨ts', (tokenizeFrom_eq_some (Nat.lt_succ_self _)).mpr hts', hxs⟩

theorem lexemes_eq_lexFrom (src : Str) : lexemes src = lexFrom true (newLexer src).src := rfl

/-! ## Chunks -/

theorem lexFrom_next (l : Lexer) : lexFrom l.atLineStart l.src = l.next.bind fun r =>
    if r.1.lexeme = .eof then some [.eof]
    else (lexFrom r.2.atLineStart r.2.src).map (r.1.lexeme :: ·) := by
  ext xs
  rw [lexFrom_eq_some]
  constructor
  · rintro ⟨ts, hts, rfl⟩
    cases hts with
    | eof h ht => rw [h, Option.bind_some, if_pos ht, map_singleton, ht]
    | cons h ht hts =>
      rw [h, Option.bind_some, if_neg ht, lexFrom_eq_some.mpr ⟨_, hts, rfl⟩]
      rfl
  · intro h
    obtain ⟨⟨t, l'⟩, hnext, h⟩ := Option.bind_eq_some_iff.mp h
    split at h
    case isTrue ht =>
      cases h
      exact ⟨[t], .eof hnext ht, by rw [map_singleton, ht]⟩
    case isFalse ht =>
      obtain ⟨xs, hxs, rfl⟩ := Option.map_eq_some_iff.mp h
      obtain ⟨ts, hts, rfl⟩ := lexFrom_eq_some.mp hxs
      exact ⟨t :: ts, .cons hnext ht hts, rfl⟩

theorem lexFrom_of_next (h : l₁.next = l₂.next) :
    lexFrom l₁.atLineStart l₁.src = lexFrom l₂.atLineStart l₂.src := by
  rw [lexFrom_next, lexFrom_next, h]

theorem lexFrom_space (start : Bool) (s : Str) :
    lexFrom start (byte ' ' :: s) = lexFrom start s :=
  @lexFrom_of_next ⟨byte ' ' :: s, 1, 0, start⟩ ⟨s, 1, 0, start⟩ rfl

theorem lexFrom_spaces (start : Bool) (n : Nat) (s : Str) :
    lexFrom start (replicate n (byte ' ') ++ s) = lexFrom start s := by
  induction n with
  | zero => rfl
  | succ n ih =>
    rw [replicate_succ, cons_append, lexFrom_space, ih]

theorem lexFrom_blankLine (s : Str) : lexFrom true (byte '\n' :: s) = lexFrom true s :=
  @lexFrom_of_next ⟨byte '\n' :: s, 1, 0, true⟩ ⟨s, 2, 1, true⟩ rfl

theorem lexFrom_emit {start' : Bool} (hblank : isBlank b = true → b = byte '\n' ∧ start = false)
    (hcont : b = byte '\\' → continuationLen s = 0) (hemits : Emits (b :: s) x rest start')
    (hx : x ≠ .eof) : lexFrom start (b :: s) = (lexFrom start' rest).map (x :: ·) := by
  have hskip : skipBlanks 0 1 0 start (b :: s) = ⟨b :: s, 1, 0, start⟩ := by
    unfold skipBlanks
    by_cases hb : isBlank b = true
    · obtain ⟨hnewline, hstart⟩ := hblank hb
      rw [if_pos hnewline, hstart, if_neg Bool.false_ne_true]
    · have hnewline : b ≠ byte '\n' := by
        rintro rfl
        exact hb rfl
      rw [if_neg hnewline, if_neg hb, if_neg fun hc => hc.2 (hcont hc.1)]
  obtain ⟨t, l', hnext, hlexeme, rfl, rfl⟩ :=
    hemits.nextToken (l := ⟨b :: s, 1, 0, start⟩) rfl
  have hnext' : (Lexer.mk (b :: s) 1 0 start).next = some (t, l') := by
    rw [Lexer.next, hskip, hnext]
  rw [lexFrom_next ⟨b :: s, 1, 0, start⟩, hnext', Option.bind_some, hlexeme, if_neg hx]

theorem lexFrom_newline (s : Str) :
    lexFrom false (byte '\n' :: s) = (lexFrom true s).map (.newline :: ·) :=
  lexFrom_emit (fun _ => ⟨rfl, rfl⟩) (fun h => absurd h (by decide)) .newline (fun h => by cases h)

theorem lexFrom_openBrace (h : closes 1 s = false) :
    lexFrom start (byte '{' :: s) = (lexFrom false s).map (.openBrace :: ·) :=
  lexFrom_emit (fun h => absurd h (by decide)) (fun h => absurd h (by decide)) (.openBrace h)
    (fun h => by cases h)

theorem lexFrom_closeBrace (s : Str) :
    lexFrom start (byte '}' :: s) = (lexFrom false s).map (.closeBrace :: ·) :=
  lexFrom_emit (fun h => absurd h (by decide)) (fun h => absurd h (by decide)) .closeBrace
    (fun h => by cases h)

theorem lexFrom_comment {c : Str} (hc : IsComment c) (s : Str) :
    lexFrom start (c ++ byte '\n' :: s) =
      (lexFrom true s).map fun xs => .comment c :: .newline :: xs := by
  obtain ⟨c', rfl⟩ := head?_eq_some_iff.mp hc.hash
  have htake : (byte '#' :: (c' ++ byte '\n' :: s)).takeWhile inComment =
      byte '#' :: c' := by
    rw [← cons_append, takeWhile_append_of_pos hc.line,
      takeWhile_cons_of_neg (by decide), append_nil]
  have hdrop : (byte '#' :: (c' ++ byte '\n' :: s)).dropWhile inComment =
      byte '\n' :: s := by
    rw [← cons_append, dropWhile_append_of_pos hc.line, dropWhile_cons_of_neg (by decide)]
  have hemits := Emits.comment (s := c' ++ byte '\n' :: s)
  rw [htake, hdrop, hc.trimmed] at hemits
  rw [cons_append, lexFrom_emit (fun h => absurd h (by decide))
    (fun h => absurd h (by decide)) hemits (fun h => by cases h), lexFrom_newline, Option.map_map]
  rfl

theorem lexFrom_bareWord (hbare : isBare 0 t = true) (hhash : t.head? ≠ some (byte '#'))
    (hquote : t.head? ≠ some (byte '"')) (hne : t ≠ []) (hlast : t.getLast? ≠ some (byte '\\'))
    (hs : EndsWord s) :
    lexFrom start (t ++ s) = (lexFrom false s).map (.word (toValidRunes 0 t) false :: ·) := by
  have hsplit := wordSplit_isBare hbare hs hlast
  cases t with
  | nil => exact absurd rfl hne
  | cons b t =>
    have hhash : b ≠ byte '#' := fun hb => hhash (by rw [hb]; rfl)
    have hquote : b ≠ byte '"' := fun hb => hquote (by rw [hb]; rfl)
    have hends := endsWord_isBare s hbare hlast
    obtain ⟨hblank, -, -, -, hcont, -⟩ := endsWord_eq_false hends
    have hemits := Emits.word hends hhash hquote
    rw [cons_append] at hsplit ⊢
    rw [hsplit] at hemits
    refine lexFrom_emit (fun h => ?_) hcont hemits (fun h => by cases h)
    rw [hblank] at h
    cases h

/-! ## Control characters -/

theorem isDisallowedControl_blank (h : isBlank b = true) : isDisallowedControl b = false := by
  simp only [isBlank, Bool.or_eq_true, beq_iff_eq] at h
  obtain ((rfl | rfl) | rfl) | rfl := h <;> decide

theorem Quoted.printable_rest (h : Quoted s t rest) (hrest : Printable rest) : Printable s := by
  induction h with
  | close => exact printable_cons.mpr ⟨by decide, hrest⟩
  | escaped he _ ih =>
    refine printable_cons.mpr ⟨by decide, printable_cons.mpr ⟨?_, ih hrest⟩⟩
    rcases he with rfl | rfl <;> rfl
  | backslash hcontrol _ _ ih =>
    exact printable_cons.mpr ⟨by decide, printable_cons.mpr ⟨hcontrol, ih hrest⟩⟩
  | plain hcontrol _ _ _ ih => exact printable_cons.mpr ⟨hcontrol, ih hrest⟩

theorem printable_append (hs : Printable s) (ht : Printable t) : Printable (s ++ t) :=
  forall_mem_append.mpr ⟨hs, ht⟩

theorem Emits.printable (h : Emits s x s' start) (hs : Printable s') : Printable s := by
  cases h with
  | eof => exact hs
  | newline | openBrace | closeBrace | semicolon => exact printable_cons.mpr ⟨by decide, hs⟩
  | comment =>
    rw [← takeWhile_append_dropWhile (p := inComment) (l := byte '#' :: _)]
    refine printable_append (fun b hb => ?_) hs
    have hb := mem_takeWhile_imp hb
    simp only [inComment, Bool.and_eq_true, Bool.not_eq_true'] at hb
    exact hb.2
  | quoted h => exact printable_cons.mpr ⟨by decide, (quotedSplit_eq_some.mp h).printable_rest hs⟩
  | @word b s h =>
    rw [← wordSplit_append 0 (b :: s)]
    exact printable_append (isBare_printable (isBare_wordSplit (.inl rfl))) hs

theorem continuationLen_printable (s : Str) : Printable (s.take (continuationLen s)) := by
  by_cases h : continuationLen s = 0
  · rw [h]
    exact printable_nil
  · obtain ⟨t, rfl | rfl⟩ := exists_of_continuationLen h
    · exact printable_cons.mpr ⟨by decide, printable_nil⟩
    · exact printable_cons.mpr ⟨by decide, printable_cons.mpr ⟨by decide, printable_nil⟩⟩

theorem Emits.of_eof (h : Emits s .eof s' start) : s' = [] := by
  cases h
  rfl

theorem skipBlanks_printable {n line pending : Nat} (hn : Printable (s.take n))
    (h : Printable (skipBlanks n line pending start s).src) : Printable s := by
  fun_induction skipBlanks n line pending start s with
  | case1 => exact printable_nil
  | case2 _ _ _ _ _ _ ih =>
    obtain ⟨hb, hn⟩ := printable_cons.mp hn
    exact printable_cons.mpr ⟨hb, ih hn h⟩
  | case3 _ _ _ ih => exact printable_cons.mpr ⟨by decide, ih printable_nil h⟩
  | case4 | case7 => exact h
  | case5 _ _ _ _ _ _ hblank ih =>
    exact printable_cons.mpr ⟨isDisallowedControl_blank hblank, ih printable_nil h⟩
  | case6 _ _ _ _ _ _ _ hcont ih =>
    exact printable_cons.mpr ⟨by rw [hcont.1]; decide, ih (continuationLen_printable _) h⟩

theorem Tokens.printable (h : Tokens l ts) : Printable l.src := by
  induction h with
  | @eof l l' t h ht =>
    have hemits := Lexer.nextToken_emits
      (skipBlanks_ready 0 l.line l.pendingBlank l.atLineStart l.src).1 h
    rw [ht] at hemits
    refine skipBlanks_printable (n := 0) printable_nil (hemits.printable ?_)
    rw [hemits.of_eof]
    exact printable_nil
  | @cons l l' t ts h ht hts ih =>
    have hemits := Lexer.nextToken_emits
      (skipBlanks_ready 0 l.line l.pendingBlank l.atLineStart l.src).1 h
    exact skipBlanks_printable (n := 0) printable_nil (hemits.printable ih)

end Cadishfile

end Cadish
