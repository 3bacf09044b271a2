import Cadish.Cadishfile.Relex

/-!
# Writing a word

A word is written bare where that is read back, and in quotes otherwise. Both lex to the word again:
`lexFrom_formatWord` for a word that was read, and `lexFrom_quoteArg` for **any text without control
characters**.
-/

namespace Cadish

open List Str

namespace Cadishfile

variable (text : Str)

def needsQuoting : Bool :=
  text.isEmpty || text.getLast? == some (byte '\\') || text.head? == some (byte '#') ||
    text.any fun b => isBlank b || b == byte '"' || b == byte ';'

def escapeQuotes : Str → Str
  | [] => []
  | b :: s =>
    if b = byte '\\' ∨ b = byte '"' then byte '\\' :: b :: escapeQuotes s
    else b :: escapeQuotes s

def quote : Str := byte '"' :: (escapeQuotes text ++ [byte '"'])

def formatWord (quoted : Bool) : Str :=
  if quoted || needsQuoting text then quote text else text

def isQuoted : Bool :=
  needsQuoting text || text.elem (byte '{') || text.elem (byte '}')

def quoteArg : Str := if isQuoted text then quote text else text

theorem needsQuoting_eq_false {text : Str} (h : needsQuoting text = false) :
    text ≠ [] ∧ text.getLast? ≠ some (byte '\\') ∧ text.head? ≠ some (byte '#') ∧
      ∀ b ∈ text, isBlank b = false ∧ b ≠ byte '"' ∧ b ≠ byte ';' := by
  simpa [needsQuoting, and_assoc] using h

theorem quotedSplit_escapeQuotes {t : Str} (ht : Printable t) (u : Str) :
    quotedSplit (escapeQuotes t ++ byte '"' :: u) = some (t, u) := by
  induction t with
  | nil =>
    rw [escapeQuotes, nil_append]
    unfold quotedSplit
    rw [if_neg (by decide), if_neg (by decide), if_pos rfl]
  | cons b t ih =>
    obtain ⟨hb, ht⟩ := printable_cons.mp ht
    have hneg : ¬ isDisallowedControl b = true := by
      rw [hb]
      exact Bool.false_ne_true
    unfold escapeQuotes
    by_cases hescape : b = byte '\\' ∨ b = byte '"'
    · rw [if_pos hescape, cons_append, cons_append]
      unfold quotedSplit
      dsimp only
      rw [if_neg hneg, if_pos hescape.symm, ih ht]
      rfl
    · rw [if_neg hescape, cons_append]
      obtain ⟨hbackslash, hquote⟩ := not_or.mp hescape
      unfold quotedSplit
      rw [if_neg hneg, if_neg hbackslash, if_neg hquote, ih ht]
      rfl

section

variable {start : Bool} {t s : Str}

theorem lexFrom_quote (ht : Printable t) :
    lexFrom start (quote t ++ s) = (lexFrom false s).map (.word (toValidRunes 0 t) true :: ·) := by
  have hemits := Emits.quoted (quotedSplit_escapeQuotes ht s)
  rw [quote, cons_append, append_assoc]
  exact lexFrom_emit (fun h => absurd h (by decide)) (fun h => absurd h (by decide)) hemits
    (fun h => by cases h)

theorem lexFrom_unquoted (hbare : isBare 0 t = true) (ht : needsQuoting t = false)
    (hs : EndsWord s) :
    lexFrom start (t ++ s) = (lexFrom false s).map (.word (toValidRunes 0 t) false :: ·) := by
  obtain ⟨hne, hlast, hhash, hall⟩ := needsQuoting_eq_false ht
  refine lexFrom_bareWord hbare hhash ?_ hne hlast hs
  intro hquote
  obtain ⟨t', rfl⟩ := head?_eq_some_iff.mp hquote
  exact (hall _ (mem_cons_self ..)).2.1 rfl

theorem lexFrom_formatWord {quoted : Bool} (ht : (Lexeme.word t quoted).Sound) (hs : EndsWord s) :
    lexFrom start (formatWord t quoted ++ s) =
      (lexFrom false s).map (.word t (quoted || needsQuoting t) :: ·) := by
  obtain ⟨hvalid, hprintable, hbare⟩ := ht
  unfold formatWord
  by_cases hquoted : (quoted || needsQuoting t) = true
  · rw [if_pos hquoted, hquoted, lexFrom_quote hprintable, hvalid]
  · rw [if_neg hquoted, Bool.eq_false_iff.mpr hquoted]
    obtain ⟨hq, hneeds⟩ := Bool.or_eq_false_iff.mp (Bool.eq_false_iff.mpr hquoted)
    rw [lexFrom_unquoted (hbare hq) hneeds hs, hvalid]

theorem isBare_of_forall (h : ∀ b ∈ t, isBlank b = false ∧ isDisallowedControl b = false ∧
    b ≠ byte ';' ∧ b ≠ byte '{' ∧ b ≠ byte '}') : isBare 0 t = true := by
  induction t with
  | nil => rfl
  | cons b t ih =>
    obtain ⟨⟨hblank, hcontrol, hsemi, hopen, hclose⟩, ht⟩ := forall_mem_cons.mp h
    simp [isBare, hblank, hcontrol, hsemi, hopen, hclose, ih ht]

theorem isQuoted_eq_false (h : isQuoted t = false) :
    needsQuoting t = false ∧ byte '{' ∉ t ∧ byte '}' ∉ t := by
  simpa [isQuoted, and_assoc] using h

theorem lexFrom_quoteArg (ht : Printable t) (hs : EndsWord s) :
    lexFrom start (quoteArg t ++ s) =
      (lexFrom false s).map (.word (toValidRunes 0 t) (isQuoted t) :: ·) := by
  unfold quoteArg
  by_cases hquoted : isQuoted t = true
  · rw [if_pos hquoted, hquoted, lexFrom_quote ht]
  rw [Bool.eq_false_iff.mpr hquoted]
  obtain ⟨hneeds, hopen, hclose⟩ := isQuoted_eq_false (Bool.eq_false_iff.mpr hquoted)
  obtain ⟨-, -, -, hall⟩ := needsQuoting_eq_false hneeds
  refine lexFrom_unquoted (isBare_of_forall fun b hb => ?_) hneeds hs
  refine ⟨(hall b hb).1, ht b hb, (hall b hb).2.2, ?_, ?_⟩
  · rintro rfl
    exact hopen hb
  · rintro rfl
    exact hclose hb

end

end Cadishfile

end Cadish
