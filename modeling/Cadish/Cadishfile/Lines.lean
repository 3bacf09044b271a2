import Cadish.Cadishfile.Format
import Mathlib.Data.List.Forall2

/-!
# Text that is written line by line

A generated Cadishfile is a list of lines of words. A word is *spelled* by a text that lexes to it
wherever white space follows (`Spells`); a line of such texts lexes to its words, and is parsed as
its statement whatever the lines behind it are.
-/

namespace Cadish

open List Option

namespace Cadishfile

variable {s : Str} {xs : List Lexeme} {fuel : Nat}

/-! ## Words and lines -/

def BlankHead (s : Str) : Prop := ∀ b ∈ s.head?, isBlank b = true

theorem BlankHead.endsWord (h : BlankHead s) : EndsWord s := by
  cases s with
  | nil => rfl
  | cons b s => exact endsWord_of_blank s (h b rfl)

theorem BlankHead.closes (h : BlankHead s) (depth : Nat) : Cadishfile.closes depth s = false := by
  cases s with
  | nil => rfl
  | cons b s => exact closes_of_blank s (h b rfl) depth

theorem blankHead_cons {b : UInt8} (hb : isBlank b = true) : BlankHead (b :: s) := by
  intro c hc
  cases hc
  exact hb

/-- The text lexes to this where white space follows. -/
def Spells (w : Str) (x : Lexeme) : Prop :=
  ∀ start s, BlankHead s → lexFrom start (w ++ s) = (lexFrom false s).map (x :: ·)

structure PlainWord (w : Str) : Prop where
  bare : isBare 0 w = true
  unquoted : needsQuoting w = false
  valid : toValidRunes 0 w = w

theorem PlainWord.spells {w : Str} (h : PlainWord w) : Spells w (.word w false) := by
  intro start s hs
  rw [lexFrom_unquoted h.bare h.unquoted hs.endsWord, h.valid]

theorem spells_quoteArg {t : Str} (ht : Printable t) (hvalid : toValidRunes 0 t = t) :
    Spells (quoteArg t) (.word t (isQuoted t)) := by
  intro start s hs
  rw [lexFrom_quoteArg ht hs.endsWord, hvalid]

theorem spells_openBrace : Spells (lit "\x7b") .openBrace :=
  fun _ _ hs => lexFrom_openBrace (hs.closes 1)

theorem spells_closeBrace : Spells (lit "\x7d") .closeBrace :=
  fun _ s _ => lexFrom_closeBrace s

theorem lexFrom_words {ws : List Str} (h : List.Forall₂ Spells ws xs) (start : Bool) (hne : ws ≠ [])
    (hs : BlankHead s) :
    lexFrom start (Str.join (lit " ") ws ++ s) = (lexFrom false s).map (xs ++ ·) := by
  induction h generalizing start with
  | nil => exact absurd rfl hne
  | @cons w x ws xs hw hws ih =>
    cases hws with
    | nil =>
      rw [Str.join, intercalate_singleton]
      exact hw start s hs
    | @cons w' x' ws xs hw' hws =>
      have hjoin : Str.join (lit " ") (w :: w' :: ws) ++ s =
          w ++ (Str.byte ' ' :: (Str.join (lit " ") (w' :: ws) ++ s)) := by
        rw [Str.join, intercalate_cons_cons, append_assoc, append_assoc]
        rfl
      rw [hjoin, hw start _ (blankHead_cons rfl), lexFrom_space, ih false (cons_ne_nil _ _),
        Option.map_map]
      rfl

theorem lexFrom_line {ws : List Str} (h : List.Forall₂ Spells ws xs) (hne : ws ≠ []) (indent : Nat)
    (s : Str) :
    lexFrom true (replicate indent (Str.byte ' ') ++
        (Str.join (lit " ") ws ++ Str.byte '\n' :: s)) =
      (lexFrom true s).map fun ys => xs ++ .newline :: ys := by
  rw [lexFrom_spaces, lexFrom_words h true hne (blankHead_cons rfl), lexFrom_newline,
    Option.map_map]
  rfl

/-! ## Lines that are statements -/

theorem plainStatement_directive {name : Str} {quoted : Bool} (hname : isDefName name quoted = false)
    (args : List Arg) (xs : List Lexeme) :
    plainStatement (.word name quoted :: (args.map Arg.lexeme ++ .newline :: xs)) =
      some (.directive name args none, xs) :=
  plainStatement_iff.mpr ⟨_, [.newline], .directive hname, .separator rfl, rfl⟩

/-! Fuel that is enough does not matter. -/

theorem parseFragmentBody_fuel (h : xs.length < fuel) :
    parseFragmentBody fuel xs = parseFragmentBody (xs.length + 1) xs := by
  ext body
  rw [parseFragmentBody_eq_some h, parseFragmentBody_eq_some (Nat.lt_succ_self _)]

theorem parseBlockBody_fuel (depth : Nat) (h : xs.length < fuel) :
    parseBlockBody fuel depth xs = parseBlockBody (xs.length + 1) depth xs := by
  ext ⟨body, rest⟩
  rw [parseBlockBody_eq_some h, parseBlockBody_eq_some (Nat.lt_succ_self _)]

theorem parseTop_fuel (h : xs.length < fuel) : parseTop fuel xs = parseTop (xs.length + 1) xs := by
  ext ⟨sites, body⟩
  rw [parseTop_eq_some h, parseTop_eq_some (Nat.lt_succ_self _)]

theorem top_skipSeparators {sites : List Site} {body : List Node} :
    Top (skipSeparators xs) sites body ↔ Top xs sites body :=
  ⟨fun h => h.congr (skipSeparators_idem xs).symm, fun h => h.congr (skipSeparators_idem xs)⟩

theorem parseTop_skipSeparators (xs : List Lexeme) :
    parseTop ((skipSeparators xs).length + 1) (skipSeparators xs) =
      parseTop (xs.length + 1) xs := by
  ext ⟨sites, body⟩
  rw [parseTop_eq_some (Nat.lt_succ_self _), parseTop_eq_some (Nat.lt_succ_self _),
    top_skipSeparators]

section

variable {text : Str} {quoted : Bool} {xs rest : List Lexeme} {n : Node}
  (h : plainStatement (.word text quoted :: xs) = some (n, rest))

include h

theorem parseStatement_of_plain (block : BlockParser) :
    parseStatement block (.word text quoted :: xs) = some (n, rest) :=
  parseStatement_eq_some.mpr (.inl h)

theorem parseFragmentBody_cons :
    parseFragmentBody ((Lexeme.word text quoted :: xs).length + 1) (.word text quoted :: xs) =
      (parseFragmentBody (rest.length + 1) rest).map (n :: ·) := by
  have hlt := plainStatement_length h
  unfold parseFragmentBody
  simp only [skipSeparators]
  rw [parseStatement_of_plain h, bind_some, parseFragmentBody_fuel hlt]
  rfl

theorem parseBlockBody_cons (depth : Nat) :
    parseBlockBody ((Lexeme.word text quoted :: xs).length + 1) depth (.word text quoted :: xs) =
      (parseBlockBody (rest.length + 1) depth rest).map fun r => (n :: r.1, r.2) := by
  have hlt := plainStatement_length h
  by_cases hdepth : maxBlockDepth < depth
  · unfold parseBlockBody
    rw [if_pos hdepth, if_pos hdepth]
    rfl
  · conv_lhs => unfold parseBlockBody
    rw [if_neg hdepth]
    simp only [skipSeparators]
    rw [parseStatement_of_plain h, bind_some, parseBlockBody_fuel depth hlt]

section

variable (hstarts : startsSiteBlock (.word text quoted :: xs) = false)
  (hwrap : unseparatedAddrWrap (.word text quoted :: xs) = false)

include hstarts hwrap

theorem parseTop_cons :
    parseTop ((Lexeme.word text quoted :: xs).length + 1) (.word text quoted :: xs) =
      (parseTop (rest.length + 1) rest).map fun r => (r.1, n :: r.2) := by
  have hlt := plainStatement_length h
  conv_lhs => unfold parseTop
  simp only [skipSeparators]
  rw [hstarts, if_neg Bool.false_ne_true, hwrap, if_neg Bool.false_ne_true,
    parseStatement_of_plain h, bind_some, parseTop_fuel hlt]

theorem parseFile_cons (hglobal : ∀ f, parseFile rest = some f → f.globalOptions = none) :
    parseFile (.word text quoted :: xs) =
      (parseFile rest).map fun f => ⟨f.globalOptions, f.sites, n :: f.body⟩ := by
  have hfirst : parseFile (.word text quoted :: xs) =
      (parseTop (rest.length + 1) rest).map fun r => ⟨none, r.1, n :: r.2⟩ := by
    unfold parseFile
    simp only [skipSeparators]
    rw [parseTop_cons h hstarts hwrap, Option.map_map]
    rfl
  rw [hfirst]
  by_cases hopen : ∃ ys, skipSeparators rest = .openBrace :: ys
  · -- behind a statement, a block without an address is no longer the global options
    obtain ⟨ys, hopen⟩ := hopen
    have htop : parseTop (rest.length + 1) rest = none := by
      unfold parseTop
      rw [hopen]
      rfl
    have hfile : parseFile rest = none := by
      by_contra hsome
      obtain ⟨f, hf⟩ := ne_none_iff_exists'.mp hsome
      have hnone := hglobal f hf
      obtain ⟨_, inner, _, -, hf, -⟩ | ⟨hnot, -⟩ := parseFile_eq_some.mp hf
      · rw [hnone] at hf
        cases hf
      · exact hnot ys hopen
    rw [htop, hfile]
    rfl
  · have hfile : parseFile rest =
        (parseTop (rest.length + 1) rest).map fun r => ⟨none, r.1, r.2⟩ := by
      unfold parseFile
      split
      case h_1 ys hys => exact absurd ⟨ys, hys⟩ hopen
      case h_2 => rw [parseTop_skipSeparators]
    rw [hfile, Option.map_map]
    rfl

end

end

end Cadishfile

end Cadish
