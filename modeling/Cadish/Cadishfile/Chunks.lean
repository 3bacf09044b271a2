import Cadish.Cadishfile.Env

/-!
# Texts that are put together

The lexer looks ahead, for the brace that ends a placeholder and for the quote that ends a text;
**over the end of a line it looks only for a quote**. So the lexemes of whole lines are the same
whatever follows them (`Reads.lexFrom_append`), unless they end within quotes. The turns of the
lexer are taken one by one (`turn`).
-/

namespace Cadish

open List Option Str

namespace Cadishfile

variable {s rest : Str} {b : UInt8} {st start : Bool} {x : Option Lexeme} {xs : List Lexeme}

/-! ## Turns -/

/-- One turn of the lexer at this byte: what it emits, whether a line begins behind it, and what is
left. -/
def turn (start : Bool) (b : UInt8) (s : Str) : Option (Option Lexeme × Bool × Str) :=
  if b = byte '\n' then some (if start then none else some .newline, true, s)
  else if isBlank b then some (none, start, s)
  else if b = byte '\\' ∧ continuationLen s ≠ 0 then some (none, start, s.drop (continuationLen s))
  else (Lexer.mk (b :: s) 1 0 start).nextToken.map fun r => (some r.1.lexeme, r.2.atLineStart, r.2.src)

structure Begins (b : UInt8) (s : Str) : Prop where
  ne_newline : b ≠ byte '\n'
  not_blank : isBlank b = false
  not_continued : b = byte '\\' → continuationLen s = 0

inductive Turn (start : Bool) : UInt8 → Str → Option Lexeme → Bool → Str → Prop
  | newline {s : Str} :
    Turn start (byte '\n') s (if start then none else some .newline) true s
  | blank {b : UInt8} {s : Str} (hne : b ≠ byte '\n') (h : isBlank b = true) : Turn start b s none start s
  | continuation {s : Str} (h : continuationLen s ≠ 0) :
    Turn start (byte '\\') s none start (s.drop (continuationLen s))
  | token {b : UInt8} {s rest : Str} {x : Lexeme} (hb : Begins b s) (h : Emits (b :: s) x rest false) :
    Turn start b s (some x) false rest

section

variable {start : Bool} {b : UInt8} {s : Str}

theorem byte_cases (b : UInt8) (s : Str) : b = byte '\n' ∨ (b ≠ byte '\n' ∧ isBlank b = true) ∨
    (b = byte '\\' ∧ continuationLen s ≠ 0) ∨ Begins b s := by
  by_cases hnewline : b = byte '\n'
  · exact .inl hnewline
  by_cases hblank : isBlank b = true
  · exact .inr (.inl ⟨hnewline, hblank⟩)
  by_cases hcont : b = byte '\\' ∧ continuationLen s ≠ 0
  · exact .inr (.inr (.inl hcont))
  · exact .inr (.inr (.inr ⟨hnewline, Bool.eq_false_iff.mpr hblank,
      fun hb => not_not.mp fun hn => hcont ⟨hb, hn⟩⟩))

theorem turn_of_begins (hb : Begins b s) : turn start b s =
    (Lexer.mk (b :: s) 1 0 start).nextToken.map fun r => (some r.1.lexeme, r.2.atLineStart, r.2.src) := by
  rw [turn, if_neg hb.ne_newline, hb.not_blank, if_neg Bool.false_ne_true,
    if_neg fun h => h.2 (hb.not_continued h.1)]

theorem Emits.atLineStart_eq {x : Lexeme} {rest : Str} {st : Bool} (h : Emits (b :: s) x rest st)
    (hb : b ≠ byte '\n') : st = false := by
  cases h with
  | newline => exact absurd rfl hb
  | comment | openBrace | closeBrace | semicolon | quoted | word => rfl

theorem Begins.emits (hb : Begins b s) {t : Token} {l : Lexer}
    (h : (Lexer.mk (b :: s) 1 0 start).nextToken = some (t, l)) :
    Emits (b :: s) t.lexeme l.src l.atLineStart := by
  refine Lexer.nextToken_emits (l := ⟨b :: s, 1, 0, start⟩) ⟨fun hblank => ?_, fun hc => ?_⟩ h
  · rw [hb.not_blank] at hblank
    cases hblank
  · exact hc.2 (hb.not_continued hc.1)

theorem turn_eq_some {st : Bool} {rest : Str} :
    turn start b s = some (x, st, rest) ↔ Turn start b s x st rest := by
  constructor
  · intro h
    rcases byte_cases b s with rfl | ⟨hne, hblank⟩ | ⟨rfl, hcont⟩ | hb
    · cases h
      exact .newline
    · rw [turn, if_neg hne, if_pos hblank] at h
      cases h
      exact .blank hne hblank
    · rw [turn, if_neg (by decide), if_neg (by decide), if_pos ⟨rfl, hcont⟩] at h
      cases h
      exact .continuation hcont
    · rw [turn_of_begins hb] at h
      obtain ⟨⟨t, l⟩, hnext, h⟩ := map_eq_some_iff.mp h
      cases h
      have hemits := hb.emits hnext
      have hstart := hemits.atLineStart_eq hb.ne_newline
      rw [hstart] at hemits ⊢
      exact .token hb hemits
  · intro h
    cases h with
    | newline => rfl
    | blank hne h => rw [turn, if_neg hne, if_pos h]
    | continuation h => rw [turn, if_neg (by decide), if_neg (by decide), if_pos ⟨rfl, h⟩]
    | token hb h =>
      obtain ⟨t, l, hnext, rfl, rfl, hstart⟩ := h.nextToken (l := ⟨b :: s, 1, 0, start⟩) rfl
      rw [turn_of_begins hb, hnext, map_some, hstart]

theorem lexFrom_of_blank (hne : b ≠ byte '\n') (h : isBlank b = true) :
    lexFrom start (b :: s) = lexFrom start s := by
  have hskip : skipBlanks 0 1 0 start (b :: s) = skipBlanks 0 1 0 start s := by
    conv_lhs => rw [skipBlanks, if_neg hne, if_pos h]
  refine @lexFrom_of_next ⟨b :: s, 1, 0, start⟩ ⟨s, 1, 0, start⟩ ?_
  rw [Lexer.next, Lexer.next, hskip]

theorem lexFrom_of_continuation (h : continuationLen s ≠ 0) :
    lexFrom start (byte '\\' :: s) = lexFrom start (s.drop (continuationLen s)) := by
  have hskip : skipBlanks 0 1 0 start (byte '\\' :: s) =
      skipBlanks 0 2 0 start (s.drop (continuationLen s)) := by
    obtain ⟨t, rfl | rfl⟩ := exists_of_continuationLen h
    · rfl
    · rfl
  refine @lexFrom_of_next ⟨byte '\\' :: s, 1, 0, start⟩ ⟨s.drop (continuationLen s), 2, 0, start⟩ ?_
  rw [Lexer.next, Lexer.next, hskip]

theorem lexFrom_cons : lexFrom start (b :: s) =
    (turn start b s).bind fun r => (lexFrom r.2.1 r.2.2).map (r.1.toList ++ ·) := by
  cases hturn : turn start b s with
  | some r =>
    obtain ⟨x, st, rest⟩ := r
    cases turn_eq_some.mp hturn with
    | newline =>
      cases start with
      | true => exact (lexFrom_blankLine s).trans Option.map_id'.symm
      | false => exact lexFrom_newline s
    | blank hne h => exact (lexFrom_of_blank hne h).trans Option.map_id'.symm
    | continuation h => exact (lexFrom_of_continuation h).trans Option.map_id'.symm
    | token hb h =>
      refine lexFrom_emit (fun hblank => ?_) hb.not_continued h (fun hx => ?_)
      · rw [hb.not_blank] at hblank
        cases hblank
      · subst hx
        cases h
  | none =>
    have hb : Begins b s := by
      rcases byte_cases b s with rfl | ⟨hne, hblank⟩ | ⟨rfl, hcont⟩ | hb
      · cases hturn
      · exact nomatch hturn.symm.trans (turn_eq_some.mpr (.blank hne hblank))
      · exact nomatch hturn.symm.trans (turn_eq_some.mpr (.continuation hcont))
      · exact hb
    rw [turn_of_begins hb, map_eq_none_iff] at hturn
    have hnext : (Lexer.mk (b :: s) 1 0 start).next = none := by
      rw [Lexer.next, skipBlanks, if_neg hb.ne_newline, hb.not_blank, if_neg Bool.false_ne_true,
        if_neg fun h => h.2 (hb.not_continued h.1)]
      exact hturn
    rw [lexFrom_next ⟨b :: s, 1, 0, start⟩, hnext]
    rfl

end

/-! ## Looking ahead -/

section

variable {s : Str} (u : Str)

variable {b : UInt8}

theorem closes_append (depth : Nat) (h : byte '\n' ∈ s) : closes depth (s ++ u) = closes depth s := by
  induction s generalizing depth with
  | nil => cases h
  | cons b s ih =>
    rw [cons_append, closes, closes]
    by_cases hstop : (isBlank b || isDisallowedControl b) = true
    · rw [if_pos hstop, if_pos hstop]
    have hmem : byte '\n' ∈ s := by
      refine (mem_cons.mp h).resolve_left ?_
      rintro rfl
      exact hstop rfl
    rw [if_neg hstop, if_neg hstop, ih _ hmem, ih _ hmem, ih _ hmem]

theorem continuationLen_append (h : s.getLast? = some (byte '\n')) :
    continuationLen (s ++ u) = continuationLen s := by
  cases s with
  | nil => cases h
  | cons b s =>
    cases s with
    | nil =>
      cases h
      rfl
    | cons c s => rfl

theorem continuationLen_le (s : Str) : continuationLen s ≤ s.length := by
  by_cases h : continuationLen s = 0
  · rw [h]
    exact Nat.zero_le _
  · obtain ⟨t, rfl | rfl⟩ := exists_of_continuationLen h
    · exact Nat.le_add_left 1 t.length
    · exact Nat.le_add_left 2 t.length

theorem endsWord_append (h : (b :: s).getLast? = some (byte '\n')) :
    endsWord b (s ++ u) = endsWord b s := by
  cases s with
  | nil =>
    cases h
    rfl
  | cons c s =>
    rw [getLast?_cons_cons] at h
    rw [endsWord, endsWord, continuationLen_append u h, closes_append u 1 (mem_of_getLast? h)]

theorem getLast?_of_not_blank (hs : (b :: s).getLast? = some (byte '\n')) (hb : isBlank b = false) :
    s.getLast? = some (byte '\n') := by
  cases s with
  | nil =>
    cases hs
    cases hb
  | cons c s => rwa [getLast?_cons_cons] at hs

theorem wordSplit_lines {depth : Nat} (hs : s.getLast? = some (byte '\n'))
    (h : depth = 0 ∨ closes depth s = true) :
    wordSplit depth (s ++ u) = ((wordSplit depth s).1, (wordSplit depth s).2 ++ u) := by
  induction s generalizing depth with
  | nil => cases hs
  | cons b s ih =>
    rw [cons_append]
    cases depth with
    | zero =>
      rw [wordSplit, wordSplit, endsWord_append u hs]
      by_cases hends : endsWord b s = true
      · rw [if_pos hends, if_pos hends]
        rfl
      · rw [if_neg hends, if_neg hends]
        have hends := Bool.eq_false_iff.mpr hends
        rw [ih (getLast?_of_not_blank hs (endsWord_eq_false hends).1) (closes_of_not_endsWord hends)]
    | succ depth =>
      obtain ⟨hblank, -, hrest⟩ := closes_succ (h.resolve_left (Nat.succ_ne_zero depth))
      rw [wordSplit, wordSplit, ih (getLast?_of_not_blank hs hblank) hrest]

end

section

variable {s t rest : Str}

theorem Quoted.append (u : Str) (h : Quoted s t rest) : Quoted (s ++ u) t (rest ++ u) := by
  obtain ⟨p, rfl, hp⟩ := h.frame
  rw [append_assoc]
  exact hp (rest ++ u)

theorem Quoted.of_append {u : Str} (hu : byte '"' ∉ u) (h : Quoted (s ++ u) t rest) :
    ∃ rest', Quoted s t rest' := by
  obtain ⟨p, heq, hp⟩ := h.frame
  rcases append_eq_append_iff.mp heq with ⟨a, -, rfl⟩ | ⟨c, rfl, hc⟩
  · exact absurd (mem_append_right _ mem_cons_self) hu
  cases c with
  | nil =>
    obtain rfl : _ = u := hc
    exact absurd mem_cons_self hu
  | cons b c =>
    obtain ⟨rfl, -⟩ := cons.inj hc
    exact ⟨c, hp c⟩

end

/-! ## Whole lines -/

theorem takeWhile_dropWhile_append {p : UInt8 → Bool} (u : Str) (h : ∃ b ∈ s, p b = false) :
    (s ++ u).takeWhile p = s.takeWhile p ∧ (s ++ u).dropWhile p = s.dropWhile p ++ u := by
  induction s with
  | nil =>
    obtain ⟨b, hb, -⟩ := h
    cases hb
  | cons c s ih =>
    cases hc : p c with
    | false => simp [hc]
    | true =>
      obtain ⟨b, hb, hpb⟩ := h
      have hs : ∃ b ∈ s, p b = false := by
        refine ⟨b, (mem_cons.mp hb).resolve_left ?_, hpb⟩
        rintro rfl
        rw [hc] at hpb
        cases hpb
      simp [hc, ih hs]

section

variable {b : UInt8} {s : Str} (hs : (b :: s).getLast? = some (byte '\n'))

include hs

theorem Emits.append {x : Lexeme} {rest : Str} (hb : Begins b s) (h : Emits (b :: s) x rest false) (u : Str) :
    Emits (b :: (s ++ u)) x (rest ++ u) false := by
  have hlast := getLast?_of_not_blank hs hb.not_blank
  cases h with
  | comment =>
    have hline : ∃ c ∈ byte '#' :: s, inComment c = false :=
      ⟨byte '\n', mem_of_getLast? hs, by decide⟩
    obtain ⟨htake, hdrop⟩ := takeWhile_dropWhile_append u hline
    rw [← htake, ← hdrop]
    exact .comment
  | openBrace h => exact .openBrace ((closes_append u 1 (mem_of_getLast? hlast)).trans h)
  | closeBrace => exact .closeBrace
  | semicolon => exact .semicolon
  | @quoted _ r h =>
    exact .quoted (r := (r.1, r.2 ++ u)) (quotedSplit_eq_some.mpr ((quotedSplit_eq_some.mp h).append u))
  | word h hcomment hquote =>
    have hsplit := wordSplit_lines u hs (.inl rfl)
    have hemits := Emits.word ((endsWord_append u hs).trans h) hcomment hquote
    rw [cons_append] at hsplit
    rw [hsplit] at hemits
    exact hemits

theorem Turn.append {st : Bool} {x : Option Lexeme} {rest : Str} (h : Turn start b s x st rest)
    (u : Str) : Turn start b (s ++ u) x st (rest ++ u) := by
  cases h with
  | newline => exact .newline
  | blank hne h => exact .blank hne h
  | continuation h =>
    have hlast := getLast?_of_not_blank hs (by decide)
    have hlen := continuationLen_append u hlast
    have hdrop : (s ++ u).drop (continuationLen (s ++ u)) = s.drop (continuationLen s) ++ u := by
      rw [hlen, drop_append_of_le_length (continuationLen_le s)]
    rw [← hdrop]
    exact .continuation (hlen ▸ h)
  | token hb h =>
    have hlast := getLast?_of_not_blank hs hb.not_blank
    exact .token ⟨hb.ne_newline, hb.not_blank, fun h => (continuationLen_append u hlast).trans
      (hb.not_continued h)⟩ (h.append hs hb u)

end

theorem Turn.of_append {u : Str} (hs : (b :: s).getLast? = some (byte '\n')) (hu : byte '"' ∉ u)
    (h : Turn start b (s ++ u) x st rest) : ∃ x st rest, Turn start b s x st rest := by
  cases h with
  | newline => exact ⟨_, _, _, .newline⟩
  | blank hne h => exact ⟨_, _, _, .blank hne h⟩
  | continuation h =>
    rw [continuationLen_append u (getLast?_of_not_blank hs (by decide))] at h
    exact ⟨_, _, _, .continuation h⟩
  | token hb h =>
    have hlast := getLast?_of_not_blank hs hb.not_blank
    have hb : Begins b s := ⟨hb.ne_newline, hb.not_blank, fun h =>
      (continuationLen_append u hlast).symm.trans (hb.not_continued h)⟩
    cases h with
    | comment => exact ⟨_, _, _, .token hb .comment⟩
    | openBrace h =>
      rw [closes_append u 1 (mem_of_getLast? hlast)] at h
      exact ⟨_, _, _, .token hb (.openBrace h)⟩
    | closeBrace => exact ⟨_, _, _, .token hb .closeBrace⟩
    | semicolon => exact ⟨_, _, _, .token hb .semicolon⟩
    | @quoted _ r h =>
      obtain ⟨rest', hrest'⟩ := (quotedSplit_eq_some.mp h).of_append hu
      exact ⟨_, _, _, .token hb (.quoted (quotedSplit_eq_some.mpr hrest'))⟩
    | word h hcomment hquote =>
      rw [endsWord_append u hs] at h
      exact ⟨_, _, _, .token hb (.word h hcomment hquote)⟩

theorem Turn.tail (h : Turn start b s x st rest) : ∃ p, p ≠ [] ∧ b :: s = p ++ rest := by
  cases h with
  | newline | blank => exact ⟨[_], cons_ne_nil _ _, rfl⟩
  | continuation =>
    exact ⟨_ :: s.take (continuationLen s), cons_ne_nil _ _,
      congrArg (_ :: ·) (take_append_drop _ s).symm⟩
  | token hb h =>
    refine h.tail ?_
    rintro rfl
    cases h

def Lines (s : Str) : Prop := s = [] ∨ s.getLast? = some (byte '\n')

theorem Lines.cons (h : Lines (b :: s)) : (b :: s).getLast? = some (byte '\n') :=
  h.resolve_left (cons_ne_nil b s)

theorem Turn.lines (h : Turn start b s x st rest) (hs : Lines (b :: s)) : Lines rest := by
  obtain ⟨p, -, hp⟩ := h.tail
  have hlast := hs.cons
  cases rest with
  | nil => exact .inl rfl
  | cons c rest =>
    rw [hp, getLast?_append_of_ne_nil _ (cons_ne_nil c rest)] at hlast
    exact .inr hlast

/-- The lexemes of a text from the beginning of a line on, or from elsewhere, and whether a line begins
behind it. -/
inductive Reads : Bool → Str → List Lexeme → Bool → Prop
  | nil {start : Bool} : Reads start [] [] start
  | turn {start st st' : Bool} {b : UInt8} {s rest : Str} {x : Option Lexeme} {xs : List Lexeme}
    (h : Turn start b s x st rest) (hrest : Reads st rest xs st') :
    Reads start (b :: s) (x.toList ++ xs) st'

theorem Reads.lexFrom_append (h : Reads start s xs st) (hs : Lines s) (u : Str) :
    lexFrom start (s ++ u) = (lexFrom st u).map (xs ++ ·) := by
  induction h with
  | nil => exact Option.map_id'.symm
  | turn h _ ih =>
    rw [cons_append, lexFrom_cons, turn_eq_some.mpr (h.append hs.cons u), bind_some,
      ih (h.lines hs), Option.map_map]
    congr 1
    funext ys
    exact (append_assoc ..).symm

theorem exists_reads {u : Str} {ys : List Lexeme} (hs : Lines s) (hu : byte '"' ∉ u)
    (h : lexFrom start (s ++ u) = some ys) : ∃ xs st, Reads start s xs st := by
  induction hlen : s.length using Nat.strongRecOn generalizing s start ys with
  | ind len ih =>
    subst hlen
    cases s with
    | nil => exact ⟨_, _, .nil⟩
    | cons b s =>
      rw [cons_append, lexFrom_cons] at h
      obtain ⟨⟨x', st', rest'⟩, hturn', h⟩ := bind_eq_some_iff.mp h
      obtain ⟨x, st, rest, hturn⟩ := (turn_eq_some.mp hturn').of_append hs.cons hu
      rw [turn_eq_some.mpr (hturn.append hs.cons u)] at hturn'
      cases hturn'
      obtain ⟨zs, hzs, -⟩ := map_eq_some_iff.mp h
      obtain ⟨xs, st', hreads⟩ := ih _ (length_lt_of_tail hturn.tail) (hturn.lines hs) hzs rfl
      exact ⟨_, _, .turn hturn hreads⟩

def Continued (s : Str) : Prop := ∃ p, s = p ++ lit "\\\n" ∨ s = p ++ lit "\\\r\n"

theorem Continued.append_left (h : Continued s) (p : Str) : Continued (p ++ s) := by
  obtain ⟨q, rfl | rfl⟩ := h
  · exact ⟨p ++ q, .inl (append_assoc ..).symm⟩
  · exact ⟨p ++ q, .inr (append_assoc ..).symm⟩

theorem continued_of_drop (h : continuationLen s ≠ 0) (hdrop : s.drop (continuationLen s) = []) :
    Continued (byte '\\' :: s) := by
  obtain ⟨t, rfl | rfl⟩ := exists_of_continuationLen h
  · obtain rfl : t = [] := hdrop
    exact ⟨[], .inl rfl⟩
  · obtain rfl : t = [] := hdrop
    exact ⟨[], .inr rfl⟩

theorem Reads.of_nil (h : Reads start [] xs st) : xs = [] ∧ st = start := by
  cases h
  exact ⟨rfl, rfl⟩

theorem Emits.rest_ne_nil {x : Lexeme} (hs : (b :: s).getLast? = some (byte '\n')) (hb : Begins b s)
    (h : Emits (b :: s) x rest false) : rest ≠ [] := by
  have hlast := getLast?_of_not_blank hs hb.not_blank
  have hne : s ≠ [] := by
    rintro rfl
    cases hlast
  cases h with
  | comment =>
    intro hnil
    rw [dropWhile_eq_nil_iff] at hnil
    exact absurd (hnil _ (mem_of_getLast? hs)) (by decide)
  | openBrace | closeBrace | semicolon => exact hne
  | @quoted _ r h =>
    intro hnil
    obtain ⟨p, rfl, -⟩ := (quotedSplit_eq_some.mp h).frame
    rw [hnil, getLast?_concat] at hlast
    cases hlast
  | word h =>
    intro hnil
    have happend := wordSplit_append 0 (b :: s)
    rw [hnil, append_nil] at happend
    have hbare := isBare_wordSplit (s := b :: s) (.inl rfl)
    rw [happend] at hbare
    exact absurd ((isBare_mem hbare (mem_of_getLast? hs)).1) (by decide)

theorem Reads.atLineStart (h : Reads start s xs st) (hne : s ≠ []) (hs : Lines s) (hend : ¬ Continued s) :
    st = true := by
  induction h with
  | nil => exact absurd rfl hne
  | @turn start st st' b s rest x xs h hrest ih =>
    by_cases hnil : rest = []
    · rw [hnil] at hrest
      rw [hrest.of_nil.2]
      cases h with
      | newline => rfl
      | blank hb hblank =>
        obtain rfl := hnil
        obtain rfl : b = _ := some.inj hs.cons
        exact absurd rfl hb
      | continuation hcont => exact absurd (continued_of_drop hcont hnil) hend
      | token hb h => exact absurd hnil (h.rest_ne_nil hs.cons hb)
    · obtain ⟨p, -, hp⟩ := h.tail
      exact ih hnil (h.lines hs) fun hcont => hend (hp ▸ hcont.append_left p)

theorem Reads.getLast? (h : Reads start s xs st) (hst : st = true) :
    xs.getLast? = some .newline ∨ xs = [] ∧ start = true := by
  induction h with
  | nil => exact .inr ⟨rfl, hst⟩
  | @turn start st st' b s rest x xs h hrest ih =>
    rcases ih hst with hlast | ⟨rfl, rfl⟩
    · left
      rw [getLast?_append_of_ne_nil _ (by rintro rfl; cases hlast), hlast]
    cases h with
    | newline =>
      cases start with
      | true => exact .inr ⟨rfl, rfl⟩
      | false => exact .inl rfl
    | blank | continuation => exact .inr ⟨rfl, rfl⟩

theorem Begins.turn_eq (hb : Begins b s) (start start' : Bool) : turn start b s = turn start' b s := by
  have hsome : ∀ start start' r, turn start b s = some r → turn start' b s = some r := by
    rintro start start' ⟨x, st, rest⟩ h
    cases turn_eq_some.mp h with
    | newline => exact absurd rfl hb.ne_newline
    | blank _ hblank =>
      rw [hb.not_blank] at hblank
      cases hblank
    | continuation hcont => exact absurd (hb.not_continued rfl) hcont
    | token hb hemits => exact turn_eq_some.mpr (.token hb hemits)
  ext r
  exact ⟨hsome _ _ r, hsome _ _ r⟩

theorem lexFrom_false (s : Str) :
    lexFrom false s = lexFrom true s ∨ lexFrom false s = (lexFrom true s).map (.newline :: ·) := by
  induction hlen : s.length using Nat.strongRecOn generalizing s with
  | ind len ih =>
    subst hlen
    cases s with
    | nil => exact .inl rfl
    | cons b s =>
      rcases byte_cases b s with rfl | ⟨hne, hblank⟩ | ⟨rfl, hcont⟩ | hb
      · rw [lexFrom_newline, lexFrom_blankLine]
        exact .inr rfl
      · rw [lexFrom_of_blank hne hblank, lexFrom_of_blank hne hblank]
        exact ih _ (Nat.lt_succ_self _) s rfl
      · rw [lexFrom_of_continuation hcont, lexFrom_of_continuation hcont]
        exact ih _ (by rw [length_drop, length_cons]; omega) _ rfl
      · rw [lexFrom_cons, lexFrom_cons, hb.turn_eq false true]
        exact .inl rfl

/-! ## The guard -/

theorem endsWord_wordSplit {depth : Nat} (h : depth = 0 ∨ closes depth s = true) {c : UInt8} {r : Str}
    (hr : (wordSplit depth s).2 = c :: r) : endsWord c r = true := by
  induction s generalizing depth with
  | nil => cases depth <;> cases hr
  | cons b s ih =>
    cases depth with
    | zero =>
      rw [wordSplit] at hr
      by_cases hends : endsWord b s = true
      · rw [if_pos hends] at hr
        cases hr
        exact hends
      · rw [if_neg hends] at hr
        exact ih (closes_of_not_endsWord (Bool.eq_false_iff.mpr hends)) hr
    | succ depth =>
      obtain ⟨-, -, hrest⟩ := closes_succ (h.resolve_left (Nat.succ_ne_zero depth))
      exact ih hrest hr

/-- The guard has passed what is left of a text, or all of it but a brace that it takes for escaped,
and that begins a block. -/
def Passes (s : Str) : Prop :=
  containsEnvPlaceholder s = false ∨
    ∃ t, s = byte '{' :: t ∧ closes 1 t = false ∧ containsEnvPlaceholder t = false

theorem containsEnvPlaceholder_continuation (h : continuationLen s ≠ 0) :
    containsEnvPlaceholder (byte '\\' :: s) = containsEnvPlaceholder (s.drop (continuationLen s)) ∧
      containsEnvPlaceholder s = containsEnvPlaceholder (s.drop (continuationLen s)) := by
  obtain ⟨t, rfl | rfl⟩ := exists_of_continuationLen h
  · exact ⟨containsEnvPlaceholder_escape _ t, containsEnvPlaceholder_cons (by decide) (by decide) t⟩
  · have hlf := containsEnvPlaceholder_cons (b := byte '\n') (by decide) (by decide) t
    refine ⟨(containsEnvPlaceholder_escape _ _).trans hlf, ?_⟩
    exact (containsEnvPlaceholder_cons (by decide) (by decide) _).trans hlf

theorem passes_of_endsWord {c : UInt8} {r : Str} (hends : endsWord c r = true)
    (h : containsEnvPlaceholder r = false) : Passes (c :: r) := by
  by_cases hescape : c = byte '\\'
  · subst hescape
    have hcont : continuationLen r ≠ 0 := by simpa +decide [endsWord] using hends
    obtain ⟨hleft, hright⟩ := containsEnvPlaceholder_continuation hcont
    exact .inl (hleft.trans (hright.symm.trans h))
  · by_cases hopen : c = byte '{'
    · subst hopen
      refine .inr ⟨r, rfl, ?_, h⟩
      simpa +decide [endsWord] using hends
    · exact .inl ((containsEnvPlaceholder_cons hescape hopen r).trans h)

theorem Quoted.passes {t : Str} (h : Quoted s t rest) (hs : containsEnvPlaceholder s = false) :
    containsEnvPlaceholder rest = false := by
  induction h with
  | close => exact containsEnvPlaceholder_tail (by decide) hs
  | escaped _ _ ih | backslash _ _ _ ih =>
    exact ih hs
  | plain _ hescape _ _ ih => exact ih (containsEnvPlaceholder_tail hescape hs)

section

variable {start st : Bool} {b : UInt8} {s rest : Str}

theorem Emits.passes {x : Lexeme} (h : Emits (b :: s) x rest false) (hs : containsEnvPlaceholder (b :: s) = false) :
    Passes rest ∧ ∀ w, x = .word w false → containsEnvPlaceholder w = false := by
  cases h with
  | comment =>
    refine ⟨?_, fun w hw => by cases hw⟩
    rw [← takeWhile_append_dropWhile (p := inComment) (l := byte '#' :: s)] at hs
    obtain ⟨-, hpass | hpass⟩ := containsEnvPlaceholder_parts hs
    · exact .inl hpass
    have hend := head?_dropWhile_not inComment (byte '#' :: s)
    cases hrest : (byte '#' :: s).dropWhile inComment with
    | nil => exact .inl rfl
    | cons c r =>
      rw [hrest] at hpass hend
      have hne : ∀ d, inComment d = true → c ≠ d := by
        rintro d hd rfl
        exact absurd (hd.symm.trans hend) (by decide)
      exact .inl ((containsEnvPlaceholder_cons (hne _ (by decide)) (hne _ (by decide)) r).trans hpass)
  | openBrace h =>
    exact ⟨.inl (containsEnvPlaceholder_tail (by decide) hs), fun w hw => by cases hw⟩
  | closeBrace | semicolon =>
    exact ⟨.inl (containsEnvPlaceholder_tail (by decide) hs), fun w hw => by cases hw⟩
  | quoted h =>
    refine ⟨.inl ?_, fun w hw => by cases hw⟩
    exact (quotedSplit_eq_some.mp h).passes (containsEnvPlaceholder_tail (by decide) hs)
  | word h =>
    rw [← wordSplit_append 0 (b :: s)] at hs
    obtain ⟨hword, hpass⟩ := containsEnvPlaceholder_parts hs
    refine ⟨?_, fun w hw => ?_⟩
    · rcases hpass with hpass | hpass
      · exact .inl hpass
      cases hrest : (wordSplit 0 (b :: s)).2 with
      | nil => exact .inl rfl
      | cons c r =>
        rw [hrest] at hpass
        exact passes_of_endsWord (endsWord_wordSplit (.inl rfl) hrest) hpass
    · cases hw
      exact containsEnvPlaceholder_sameAscii (sameAscii_runes _) hword

theorem Turn.passes (h : Turn start b s x st rest) (hs : Passes (b :: s)) :
    Passes rest ∧ ∀ w, x = some (.word w false) → containsEnvPlaceholder w = false := by
  rcases hs with hs | ⟨t, heq, hcloses, ht⟩
  · cases h with
    | newline =>
      refine ⟨.inl (containsEnvPlaceholder_tail (by decide) hs), fun w hw => ?_⟩
      split at hw <;> cases hw
    | blank hne h =>
      refine ⟨.inl (containsEnvPlaceholder_tail ?_ hs), fun w hw => by cases hw⟩
      rintro rfl
      cases h
    | continuation h =>
      exact ⟨.inl ((containsEnvPlaceholder_continuation h).1.symm.trans hs), fun w hw => by cases hw⟩
    | token hb h =>
      obtain ⟨hrest, hword⟩ := h.passes hs
      exact ⟨hrest, fun w hw => hword w (some.inj hw)⟩
  · obtain ⟨rfl, rfl⟩ := cons.inj heq
    cases h with
    | blank _ h => cases h
    | token hb h =>
      cases h with
      | openBrace => exact ⟨.inl ht, fun w hw => by cases hw⟩
      | word h =>
        obtain ⟨-, -, -, -, -, hopen⟩ := endsWord_eq_false h
        rw [hopen rfl] at hcloses
        cases hcloses

theorem Reads.guarded (h : Reads start s xs st) (hs : Passes s) {w : Str} (hw : .word w false ∈ xs)
    : containsEnvPlaceholder w = false := by
  induction h with
  | nil => cases hw
  | turn h _ ih =>
    obtain ⟨hrest, hword⟩ := h.passes hs
    rcases mem_append.mp hw with hw | hw
    · exact hword w (mem_toList.mp hw)
    · exact ih hrest hw

end

end Cadishfile

end Cadish
