import Cadish.Cadishfile.Lines

/-!
# The addresses of a site

The addresses of a site may stand on several lines. The parser looks ahead twice: a list whose words
all end in a comma goes on over the end of a line (`OneHeader`), and a list that is only broken is
refused (`Loud`). **Nothing of a list is lost if it is one header, or is refused at some line, or
the brace is reached without an address, and only then** (`parse_addresses_iff`).
-/

namespace Cadish

open List Option Str

namespace Cadishfile

variable {w : Str}

/-! ## Lists of addresses -/

def wordAddresses (w : Str) : List Str := (split (byte ',') w).filter fun a => !a.isEmpty

def addressesOf : List Lexeme → List Str
  | [] => []
  | .word w _ :: xs => wordAddresses w ++ addressesOf xs
  | _ :: xs => addressesOf xs

/-- An address that is clearly the name of a host. A word that begins with `@` never is an address,
and no address begins or ends with white space. -/
structure ClearAddress (a : Str) : Prop where
  clear : clearlyHostnameShaped a = true
  notDef : hasPrefix a (lit "@") = false
  trimmed : trimSpace a = a

/-- What may stand in front of the brace: addresses without quotes, commas, and separators. -/
inductive Listing : Lexeme → Prop
  | word {w : Str} (hne : w ≠ []) (h : ∀ a ∈ wordAddresses w, ClearAddress a) : Listing (.word w false)
  | newline : Listing .newline
  | semicolon : Listing .semicolon
  | comment (c : Str) : Listing (.comment c)

/-- The list may be one header: there is no semicolon, and every word with the end of a line
somewhere behind it is an address that ends in a comma. -/
def OneHeader : List Lexeme → Prop
  | [] => True
  | .word w q :: xs => (.newline ∈ xs → isListed w q = true) ∧ OneHeader xs
  | .semicolon :: _ => False
  | _ :: xs => OneHeader xs

def Lexeme.isClear : Lexeme → Bool
  | .word w _ => clearlyHostnameShaped w
  | _ => false

/-- A list that is broken, and seen to be: all of it is addresses, two at least that can be nothing
else, one of these in front. -/
structure Loud (xs : List Lexeme) : Prop where
  tokens : ∀ w, .word w false ∈ xs → isAddressToken w = true
  first : xs.head?.any Lexeme.isClear = true
  two : 2 ≤ xs.countP Lexeme.isClear
  broken : .newline ∈ xs ∨ .semicolon ∈ xs

/-- The list from each of its lines on. A semicolon and a comment end a line, too. -/
def lineStarts (fresh : Bool) : List Lexeme → List (List Lexeme)
  | [] => []
  | .word w q :: xs =>
    if fresh then (.word w q :: xs) :: lineStarts false xs else lineStarts false xs
  | _ :: xs => lineStarts true xs

/-- Nothing of the list gets lost: it is one header, or it is broken and seen to be from some line on,
or no line from which on it is one header has an address. -/
def Kept (xs : List Lexeme) : Prop :=
  (∀ ys ∈ (lineStarts true xs).head?, OneHeader ys) ∨
    (∃ ys ∈ lineStarts true xs, ¬ OneHeader ys ∧ Loud ys) ∨
      ∀ ys ∈ lineStarts true xs, OneHeader ys → addressesOf ys = []

/-! ## Words -/

theorem splitAddressToken_eq (hne : w ≠ []) (h : ∀ a ∈ wordAddresses w, ClearAddress a) :
    splitAddressToken w = wordAddresses w := by
  rw [splitAddressToken]
  by_cases hcomma : byte ',' ∈ w
  · rw [if_pos (elem_eq_true_of_mem hcomma), List.filter_map, wordAddresses]
    have hsame : ∀ a ∈ split (byte ',') w, trimSpace a = a := by
      intro a ha
      cases a with
      | nil => rfl
      | cons b a => exact (h _ (mem_filter.mpr ⟨ha, rfl⟩)).trimmed
    rw [filter_congr fun a ha => by rw [Function.comp_apply, hsame a ha]]
    conv_rhs => rw [← List.map_id (filter _ _)]
    exact map_congr_left fun a ha => hsame a (mem_filter.mp ha).1
  · have hsplit : split (byte ',') w = [w] := by
      refine splitOnP_eq_singleton fun b hb => ?_
      simpa using fun heq : b = byte ',' => hcomma (heq ▸ hb)
    rw [if_neg fun hmem => hcomma (mem_of_elem_eq_true hmem), wordAddresses, hsplit]
    cases w with
    | nil => exact absurd rfl hne
    | cons => rfl

theorem Listing.notDef {q : Bool} (h : Listing (.word w q)) : isDefName w q = false := by
  cases h with
  | word hne h =>
    by_contra hdef
    have hat : hasPrefix w (lit "@") = true := by simpa [isDefName] using hdef
    obtain ⟨t, rfl⟩ := isPrefixOf_iff_prefix.mp hat
    have hcons : split (byte ',') (lit "@" ++ t) =
        (split (byte ',') t).modifyHead (byte '@' :: ·) := by
      change splitOnP (· == byte ',') (byte '@' :: t) = _
      rw [splitOnP_cons_eq_if_modifyHead]
      rfl
    obtain ⟨p, ps, hp⟩ := exists_cons_of_ne_nil (splitOnP_ne_nil (· == byte ',') t)
    have hsplit : split (byte ',') (lit "@" ++ t) = (byte '@' :: p) :: ps := by
      rw [hcons, split, splitOn, hp]
      rfl
    have hmem : byte '@' :: p ∈ wordAddresses (lit "@" ++ t) := by
      rw [wordAddresses, hsplit]
      exact mem_filter.mpr ⟨mem_cons_self, rfl⟩
    have hprefix : hasPrefix (byte '@' :: p) (lit "@") = true :=
      isPrefixOf_iff_prefix.mpr ⟨p, rfl⟩
    rw [(h _ hmem).notDef] at hprefix
    cases hprefix

/-! ## The look ahead -/

section

variable {xs : List Lexeme} (h : ∀ x ∈ xs, Listing x)

include h

theorem headerAhead_iff (addrList : Bool) (rest : List Lexeme) :
    headerAhead addrList (xs ++ .openBrace :: rest) = true ↔
      OneHeader xs ∧ (addrList = false → .newline ∉ xs) := by
  induction xs generalizing addrList with
  | nil => simp [headerAhead, OneHeader]
  | cons x xs ih =>
    have ih := ih fun y hy => h y (mem_cons_of_mem _ hy)
    cases h x mem_cons_self with
    | @word w hne hw =>
      rw [cons_append, headerAhead, ih, OneHeader]
      cases addrList <;> cases isListed w false <;> simp <;> tauto
    | newline =>
      cases addrList <;> simp [headerAhead, OneHeader, ih]
    | semicolon => simp [headerAhead, OneHeader]
    | comment c =>
      simp [headerAhead, OneHeader, ih]

theorem wrapAhead_iff (clear : Nat) (sawSep : Bool) (rest : List Lexeme) :
    wrapAhead clear sawSep (xs ++ .openBrace :: rest) = true ↔
      (∀ w, .word w false ∈ xs → isAddressToken w = true) ∧ 2 ≤ clear + xs.countP Lexeme.isClear ∧
        (sawSep = true ∨ .newline ∈ xs ∨ .semicolon ∈ xs) := by
  induction xs generalizing clear sawSep with
  | nil => simp [wrapAhead, and_comm]
  | cons x xs ih =>
    have ih := ih fun y hy => h y (mem_cons_of_mem _ hy)
    cases h x mem_cons_self with
    | @word w hne hw =>
      have hcount : (if clearlyHostnameShaped w = true then clear + 1 else clear) +
          xs.countP Lexeme.isClear = clear + (Lexeme.word w false :: xs).countP Lexeme.isClear := by
        rw [countP_cons, Lexeme.isClear]
        split <;> omega
      rw [cons_append, wrapAhead, Bool.and_eq_true, ih, hcount]
      simp [and_assoc]
    | newline | semicolon | comment c =>
      rw [cons_append, wrapAhead, ih]
      simp [Lexeme.isClear]

theorem siteHeader_append (hone : OneHeader xs) (rest : List Lexeme) :
    siteHeader (xs ++ .openBrace :: rest) = some (addressesOf xs, rest) := by
  induction xs with
  | nil => rfl
  | cons x xs ih =>
    have ih := ih fun y hy => h y (mem_cons_of_mem _ hy)
    cases h x mem_cons_self with
    | word hne hw =>
      rw [cons_append, siteHeader, ih hone.2, splitAddressToken_eq hne hw]
      rfl
    | newline | comment c => exact ih hone
    | semicolon => cases hone

end

/-! ## Lines -/

variable {ws xs ys : List Lexeme} {x : Lexeme}

theorem lineStarts_words (hws : ∀ x ∈ ws, ∃ w q, x = .word w q) (ys : List Lexeme) :
    lineStarts false (ws ++ ys) = lineStarts false ys := by
  induction ws with
  | nil => rfl
  | cons x ws ih =>
    obtain ⟨w, q, rfl⟩ := hws x mem_cons_self
    exact ih fun y hy => hws y (mem_cons_of_mem _ hy)

theorem lineStarts_separator (hx : x.isSeparator = true) (fresh : Bool) (xs : List Lexeme) :
    lineStarts fresh (x :: xs) = lineStarts true xs := by
  cases x with
  | word | openBrace | closeBrace | eof => cases hx
  | newline | semicolon | comment => rfl

theorem addressesOf_separator (hx : x.isSeparator = true) (xs : List Lexeme) :
    addressesOf (x :: xs) = addressesOf xs := by
  cases x with
  | word | openBrace | closeBrace | eof => cases hx
  | newline | semicolon | comment => rfl

theorem OneHeader.of_lineStarts {fresh : Bool} (h : OneHeader xs) (hys : ys ∈ lineStarts fresh xs) :
    OneHeader ys := by
  induction xs generalizing fresh with
  | nil => cases hys
  | cons x xs ih =>
    cases x with
    | word w q =>
      cases fresh with
      | false => exact ih h.2 hys
      | true =>
        rcases mem_cons.mp hys with rfl | hys
        · exact h
        · exact ih h.2 hys
    | semicolon => cases h
    | openBrace | closeBrace | newline | comment | eof => exact ih h hys

theorem addressesOf_lineStarts {fresh : Bool} (hys : ys ∈ lineStarts fresh xs)
    (hnone : addressesOf xs = []) : addressesOf ys = [] := by
  induction xs generalizing fresh with
  | nil => cases hys
  | cons x xs ih =>
    cases x with
    | word w q =>
      have hrest : addressesOf xs = [] := (append_eq_nil_iff.mp hnone).2
      cases fresh with
      | false => exact ih hys hrest
      | true =>
        rcases mem_cons.mp hys with rfl | hys
        · exact hnone
        · exact ih hys hrest
    | openBrace | closeBrace | newline | semicolon | comment | eof => exact ih hys hnone

theorem oneHeader_of_words (h : ∀ x ∈ xs, ∃ w q, x = .word w q) : OneHeader xs := by
  induction xs with
  | nil => trivial
  | cons x xs ih =>
    have hxs := fun y hy => h y (mem_cons_of_mem x hy)
    obtain ⟨w, q, rfl⟩ := h x mem_cons_self
    refine ⟨fun hmem => ?_, ih hxs⟩
    obtain ⟨w', q', heq⟩ := hxs _ hmem
    cases heq

theorem words_or_line (h : ∀ x ∈ xs, Listing x) :
    (∀ x ∈ xs, ∃ w q, x = .word w q) ∨
      ∃ ws x zs, xs = ws ++ x :: zs ∧ (∀ y ∈ ws, ∃ w q, y = .word w q) ∧ x.isSeparator = true := by
  induction xs with
  | nil => exact .inl fun _ hx => absurd hx not_mem_nil
  | cons x xs ih =>
    cases h x mem_cons_self with
    | word =>
      rcases ih fun y hy => h y (mem_cons_of_mem _ hy) with hwords | ⟨ws, x, zs, rfl, hws, hx⟩
      · exact .inl (forall_mem_cons.mpr ⟨⟨_, _, rfl⟩, hwords⟩)
      · exact .inr ⟨_ :: ws, x, zs, rfl, forall_mem_cons.mpr ⟨⟨_, _, rfl⟩, hws⟩, hx⟩
    | newline | semicolon | comment => exact .inr ⟨[], _, xs, rfl, by simp, rfl⟩

inductive Lined : List Lexeme → Prop
  | nil : Lined []
  | skip {x : Lexeme} {xs : List Lexeme} (hx : x.isSeparator = true) (hxs : Lined xs) : Lined (x :: xs)
  | site {w : Str} {xs : List Lexeme} (h : ∀ y ∈ Lexeme.word w false :: xs, Listing y)
    (hone : OneHeader (.word w false :: xs)) : Lined (.word w false :: xs)
  | line {w : Str} {ws zs : List Lexeme} {x : Lexeme}
    (h : ∀ y ∈ Lexeme.word w false :: (ws ++ x :: zs), Listing y)
    (hone : ¬ OneHeader (.word w false :: (ws ++ x :: zs))) (hws : ∀ y ∈ ws, ∃ w q, y = .word w q)
    (hx : x.isSeparator = true) (hzs : Lined zs) : Lined (.word w false :: (ws ++ x :: zs))

theorem lined (h : ∀ x ∈ xs, Listing x) : Lined xs := by
  induction hlen : xs.length using Nat.strongRecOn generalizing xs with
  | ind len ih =>
    subst hlen
    cases xs with
    | nil => exact .nil
    | cons x xs =>
      have hxs := fun y hy => h y (mem_cons_of_mem x hy)
      cases h x mem_cons_self with
      | @word w hne hw =>
        by_cases hone : OneHeader (.word w false :: xs)
        · exact .site h hone
        rcases words_or_line hxs with hwords | ⟨ws, x, zs, rfl, hws, hx⟩
        · exact absurd (oneHeader_of_words (forall_mem_cons.mpr ⟨⟨_, _, rfl⟩, hwords⟩)) hone
        · refine .line h hone hws hx (ih zs.length ?_ ?_ rfl)
          · simp only [length_cons, length_append]
            omega
          · exact fun y hy => hxs y (mem_append_right _ (mem_cons_of_mem _ hy))
      | newline | semicolon | comment => exact .skip rfl (ih xs.length (Nat.lt_succ_self _) hxs rfl)

theorem lineStarts_line (hws : ∀ y ∈ ws, ∃ w q, y = .word w q) (hx : x.isSeparator = true)
    (zs : List Lexeme) :
    lineStarts true (.word w false :: (ws ++ x :: zs)) =
      (.word w false :: (ws ++ x :: zs)) :: lineStarts true zs := by
  rw [lineStarts, if_pos rfl, lineStarts_words hws, lineStarts_separator hx]

/-! ## What is parsed -/

theorem plainStatement_line (hdef : isDefName w false = false) (hws : ∀ y ∈ ws, ∃ w q, y = .word w q)
    (hx : x.isSeparator = true) (ys : List Lexeme) :
    ∃ n, plainStatement (.word w false :: (ws ++ x :: ys)) = some (n, ys) := by
  have hargs : ∃ args : List Arg, ws = args.map Arg.lexeme := by
    induction ws with
    | nil => exact ⟨[], rfl⟩
    | cons x ws ih =>
      obtain ⟨w, q, rfl⟩ := hws x mem_cons_self
      obtain ⟨args, rfl⟩ := ih fun y hy => hws y (mem_cons_of_mem _ hy)
      exact ⟨⟨w, q⟩ :: args, rfl⟩
  obtain ⟨args, rfl⟩ := hargs
  exact ⟨_, plainStatement_iff.mpr ⟨_, [x], .directive hdef, .separator hx, rfl⟩⟩

/-- The file from here on. -/
def topOf (xs : List Lexeme) : Option (List Site × List Node) := parseTop (xs.length + 1) xs

theorem topOf_separator (hx : x.isSeparator = true) (xs : List Lexeme) :
    topOf (x :: xs) = topOf xs := by
  rw [topOf, topOf, ← parseTop_skipSeparators (x :: xs), ← parseTop_skipSeparators xs]
  cases x with
  | word | openBrace | closeBrace | eof => cases hx
  | newline | semicolon | comment => rfl

section

variable (h : ∀ y ∈ Lexeme.word w false :: xs, Listing y)

include h

theorem startsSiteBlock_iff (rest : List Lexeme) :
    startsSiteBlock (.word w false :: (xs ++ .openBrace :: rest)) = true ↔
      OneHeader (.word w false :: xs) := by
  have hahead := headerAhead_iff h true rest
  rw [cons_append] at hahead
  rw [startsSiteBlock, (h _ mem_cons_self).notDef, Bool.not_false, Bool.true_and, hahead]
  simp

theorem unseparatedAddrWrap_iff (rest : List Lexeme) :
    unseparatedAddrWrap (.word w false :: (xs ++ .openBrace :: rest)) = true ↔
      Loud (.word w false :: xs) := by
  have hahead := wrapAhead_iff h 0 false rest
  rw [cons_append] at hahead
  have hat : hasPrefix w (lit "@") = false := by simpa [isDefName] using (h _ mem_cons_self).notDef
  rw [unseparatedAddrWrap, hat, Bool.and_eq_true, hahead]
  constructor
  · rintro ⟨hfirst, htokens, htwo, hbroken⟩
    exact ⟨htokens, hfirst, by simpa using htwo, by simpa using hbroken⟩
  · rintro ⟨htokens, hfirst, htwo, hbroken⟩
    exact ⟨hfirst, htokens, by simpa using htwo, .inr hbroken⟩

theorem topOf_loud (hone : ¬ OneHeader (.word w false :: xs)) (hloud : Loud (.word w false :: xs))
    (rest : List Lexeme) : topOf (.word w false :: xs ++ .openBrace :: rest) = none := by
  have hstarts := Bool.eq_false_iff.mpr fun hstarts => hone ((startsSiteBlock_iff h rest).mp hstarts)
  have hwrap := (unseparatedAddrWrap_iff h rest).mpr hloud
  rw [topOf, cons_append, parseTop]
  simp only [skipSeparators]
  rw [hstarts, if_neg Bool.false_ne_true, if_pos hwrap]

variable (hone : OneHeader (.word w false :: xs))

include hone

theorem topOf_header_none (hnone : addressesOf (.word w false :: xs) = []) (rest : List Lexeme) :
    topOf (.word w false :: xs ++ .openBrace :: rest) = none := by
  have hheader := siteHeader_append h hone rest
  rw [hnone] at hheader
  rw [topOf, cons_append, parseTop]
  simp only [skipSeparators]
  rw [if_pos ((startsSiteBlock_iff h rest).mpr hone), parseSite, ← cons_append, hheader]
  rfl

theorem topOf_header {rest after : List Lexeme} {body : List Node} (hblock : Block 1 rest body after)
    (hafter : skipSeparators after = [.eof]) (hsome : addressesOf (.word w false :: xs) ≠ []) :
    topOf (.word w false :: xs ++ .openBrace :: rest) =
      some ([⟨addressesOf (.word w false :: xs), body⟩], []) :=
  (parseTop_eq_some (Nat.lt_succ_self _)).mpr
    (.site ((startsSiteBlock_iff h rest).mpr hone) (siteHeader_append h hone rest) hsome hblock
      (.eof hafter))

end

theorem topOf_line {zs : List Lexeme} (h : ∀ y ∈ Lexeme.word w false :: (ws ++ x :: zs), Listing y)
    (hone : ¬ OneHeader (.word w false :: (ws ++ x :: zs))) (hws : ∀ y ∈ ws, ∃ w q, y = .word w q)
    (hx : x.isSeparator = true) (hloud : ¬ Loud (.word w false :: (ws ++ x :: zs))) (rest : List Lexeme) :
    ∃ n, topOf (.word w false :: (ws ++ x :: zs) ++ .openBrace :: rest) =
      (topOf (zs ++ .openBrace :: rest)).map fun r => (r.1, n :: r.2) := by
  have hstarts := Bool.eq_false_iff.mpr fun hstarts => hone ((startsSiteBlock_iff h rest).mp hstarts)
  have hwrap := Bool.eq_false_iff.mpr fun hwrap => hloud ((unseparatedAddrWrap_iff h rest).mp hwrap)
  obtain ⟨n, hn⟩ := plainStatement_line (h _ mem_cons_self).notDef hws hx (zs ++ .openBrace :: rest)
  have hxs : .word w false :: (ws ++ x :: (zs ++ .openBrace :: rest)) =
      Lexeme.word w false :: ((ws ++ x :: zs) ++ .openBrace :: rest) := by
    rw [append_assoc, cons_append]
  rw [hxs] at hn
  exact ⟨n, parseTop_cons hn hstarts hwrap⟩

theorem topOf_openBrace (rest : List Lexeme) : topOf (.openBrace :: rest) = none := rfl

/-! ## Nothing is lost -/

section

variable {rest after : List Lexeme} {body : List Node} (hblock : Block 1 rest body after)
  (hafter : skipSeparators after = [.eof])

include hblock hafter

theorem topOf_isSome (h : Lined xs)
    (hquiet : ∀ ys ∈ lineStarts true xs, ¬ OneHeader ys → ¬ Loud ys)
    (hsome : ∃ ys ∈ lineStarts true xs, OneHeader ys ∧ addressesOf ys ≠ []) :
    (topOf (xs ++ .openBrace :: rest)).isSome = true := by
  revert hquiet hsome
  induction h with
  | nil =>
    rintro - ⟨ys, hys, -⟩
    cases hys
  | @skip x xs hx hxs ih =>
    rw [lineStarts_separator hx, cons_append, topOf_separator hx]
    exact ih
  | @site w xs hxs hone =>
    rintro - ⟨ys, hys, -, hne⟩
    have hsome := fun hnone => hne (addressesOf_lineStarts hys hnone)
    rw [topOf_header hxs hone hblock hafter hsome]
    rfl
  | @line w ws zs x hxs hone hws hx hzs ih =>
    rw [lineStarts_line hws hx]
    rintro hquiet ⟨ys, hys, hheader, hne⟩
    obtain ⟨n, hn⟩ := topOf_line hxs hone hws hx (hquiet _ mem_cons_self hone) rest
    rw [hn, isSome_map]
    refine ih (fun zs hzs => hquiet zs (mem_cons_of_mem _ hzs)) ⟨ys, ?_, hheader, hne⟩
    rcases mem_cons.mp hys with rfl | hys
    · exact absurd hheader hone
    · exact hys

omit hblock hafter

theorem topOf_eq_none (h : Lined xs)
    (herror : (∃ ys ∈ lineStarts true xs, ¬ OneHeader ys ∧ Loud ys) ∨
      ∀ ys ∈ lineStarts true xs, OneHeader ys → addressesOf ys = []) (rest : List Lexeme) :
    topOf (xs ++ .openBrace :: rest) = none := by
  revert herror
  induction h with
  | nil => exact fun _ => topOf_openBrace rest
  | @skip x xs hx hxs ih =>
    rw [lineStarts_separator hx, cons_append, topOf_separator hx]
    exact ih
  | @site w xs hxs hone =>
    rintro (⟨ys, hys, hnot, -⟩ | hnone)
    · exact absurd (hone.of_lineStarts hys) hnot
    · exact topOf_header_none hxs hone (hnone _ mem_cons_self hone) rest
  | @line w ws zs x hxs hone hws hx hzs ih =>
    rw [lineStarts_line hws hx]
    intro herror
    by_cases hloud : Loud (.word w false :: (ws ++ x :: zs))
    · exact topOf_loud hxs hone hloud rest
    obtain ⟨n, hn⟩ := topOf_line hxs hone hws hx hloud rest
    rw [hn, map_eq_none_iff]
    refine ih ?_
    rcases herror with ⟨ys, hys, hnot, hys'⟩ | hnone
    · rcases mem_cons.mp hys with rfl | hys
      · exact absurd hys' hloud
      · exact .inl ⟨ys, hys, hnot, hys'⟩
    · exact .inr fun ys hys => hnone ys (mem_cons_of_mem _ hys)

theorem body_ne_nil (h : Lined xs) (hfirst : ∃ ys ∈ (lineStarts true xs).head?, ¬ OneHeader ys)
    {r : List Site × List Node} (hr : topOf (xs ++ .openBrace :: rest) = some r) : r.2 ≠ [] := by
  revert hfirst
  induction h with
  | nil =>
    rintro ⟨ys, hys, -⟩
    cases hys
  | @skip x xs hx hxs ih =>
    rw [cons_append, topOf_separator hx] at hr
    rw [lineStarts_separator hx]
    exact ih hr
  | site hxs hone =>
    rintro ⟨ys, hys, hnot⟩
    cases hys
    exact absurd hone hnot
  | @line w ws zs x hxs hone hws hx hzs ih =>
    intro _
    by_cases hloud : Loud (.word w false :: (ws ++ x :: zs))
    · rw [topOf_loud hxs hone hloud] at hr
      cases hr
    · obtain ⟨n, hn⟩ := topOf_line hxs hone hws hx hloud rest
      rw [hn] at hr
      obtain ⟨r', -, rfl⟩ := map_eq_some_iff.mp hr
      exact cons_ne_nil _ _

include hblock hafter in
theorem topOf_of_first (h : Lined xs) (hfirst : ∀ ys ∈ (lineStarts true xs).head?, OneHeader ys)
    (hsome : addressesOf xs ≠ []) :
    topOf (xs ++ .openBrace :: rest) = some ([⟨addressesOf xs, body⟩], []) := by
  revert hfirst hsome
  induction h with
  | nil => exact fun _ hsome => absurd rfl hsome
  | @skip x xs hx hxs ih =>
    rw [lineStarts_separator hx, cons_append, topOf_separator hx, addressesOf_separator hx]
    exact ih
  | site hxs hone => exact fun _ hsome => topOf_header hxs hone hblock hafter hsome
  | line hxs hone hws hx hzs ih => exact fun hfirst _ => absurd (hfirst _ rfl) hone

theorem skipSeparators_header (h : ∀ x ∈ xs, Listing x) (hsome : addressesOf xs ≠ [])
    (rest ys : List Lexeme) : skipSeparators (xs ++ .openBrace :: rest) ≠ .openBrace :: ys := by
  induction xs with
  | nil => exact absurd rfl hsome
  | cons x xs ih =>
    have ih := ih fun y hy => h y (mem_cons_of_mem _ hy)
    cases h x mem_cons_self with
    | word =>
      intro heq
      cases heq
    | newline | semicolon | comment => exact ih hsome

theorem parse_header {src : Str} (hlex : lexemes src = some (xs ++ .openBrace :: rest))
    (h : ∀ x ∈ xs, Listing x) (hsome : addressesOf xs ≠ []) :
    parse src = (topOf (xs ++ .openBrace :: rest)).map fun r => ⟨none, r.1, r.2⟩ := by
  rw [parse, hlex, bind_some, parseFile, topOf, ← parseTop_skipSeparators]
  split
  · rename_i ys heq
    exact absurd heq (skipSeparators_header h hsome rest ys)
  · rfl

end

structure AddressBlock (src : Str) (header : List Lexeme) (body : List Node) : Prop where
  lexed : ∃ rest after, lexemes src = some (header ++ .openBrace :: rest) ∧ Block 1 rest body after ∧
    skipSeparators after = [.eof]
  listing : ∀ x ∈ header, Listing x
  some_address : addressesOf header ≠ []

/-- **What becomes of a list of addresses**: it is refused, or becomes the addresses of one site, if
and only if nothing of it gets lost. -/
theorem parse_addresses_iff {src : Str} {header : List Lexeme} {body : List Node}
    (h : AddressBlock src header body) :
    parse src = none ∨ parse src = some ⟨none, [⟨addressesOf header, body⟩], []⟩ ↔ Kept header := by
  obtain ⟨⟨rest, after, hlex, hblock, hafter⟩, hlisting, hsome⟩ := h
  rw [parse_header hlex hlisting hsome]
  have hlined := lined hlisting
  constructor
  · intro hparse
    by_contra hlost
    rw [Kept, not_or, not_or] at hlost
    obtain ⟨hfirst, hquiet, haddress⟩ := hlost
    push Not at hfirst hquiet haddress
    have hisSome := topOf_isSome hblock hafter hlined hquiet haddress
    obtain ⟨r, hr⟩ := isSome_iff_exists.mp hisSome
    have hbody := body_ne_nil hlined hfirst hr
    rw [hr] at hparse
    rcases hparse with hparse | hparse
    · cases hparse
    · exact hbody (congrArg File.body (some.inj hparse))
  · rintro (hfirst | herror)
    · rw [topOf_of_first hblock hafter hlined hfirst hsome]
      exact .inr rfl
    · rw [topOf_eq_none hlined herror]
      exact .inl rfl

theorem addressBlock_empty {src : Str} {header : List Lexeme}
    (hlex : lexemes src = some (header ++ [.openBrace, .newline, .closeBrace, .newline, .eof]))
    (hlisting : ∀ x ∈ header, Listing x) (hsome : addressesOf header ≠ []) : AddressBlock src header [] :=
  ⟨⟨_, [.newline, .eof], hlex, .close (by decide) rfl, rfl⟩, hlisting, hsome⟩

theorem listing_word (as : List Str) (hne : w ≠ []) (has : wordAddresses w = as)
    (h : ∀ a ∈ as, clearlyHostnameShaped a = true ∧ hasPrefix a (lit "@") = false ∧ trimSpace a = a) :
    Listing (.word w false) := by
  refine .word hne fun a ha => ?_
  obtain ⟨hclear, hdef, htrim⟩ := h a (has ▸ ha)
  exact ⟨hclear, hdef, htrim⟩

theorem parse_addresses_comma :
    AddressBlock (lit "a.example.com,\nb.example.com \x7b\n\x7d\n")
      [.word (lit "a.example.com,") false, .newline, .word (lit "b.example.com") false] [] ∧
    (parse (lit "a.example.com,\nb.example.com \x7b\n\x7d\n") = none ∨
      parse (lit "a.example.com,\nb.example.com \x7b\n\x7d\n") = some ⟨none,
        [⟨addressesOf [.word (lit "a.example.com,") false, .newline, .word (lit "b.example.com") false],
          []⟩], []⟩ ↔
      Kept [.word (lit "a.example.com,") false, .newline, .word (lit "b.example.com") false]) := by
  have hblock : AddressBlock (lit "a.example.com,\nb.example.com \x7b\n\x7d\n")
      [.word (lit "a.example.com,") false, .newline, .word (lit "b.example.com") false] [] := by
    refine addressBlock_empty (by decide) ?_ (by decide)
    simp only [forall_mem_cons, not_mem_nil, false_imp_iff, implies_true, and_true]
    exact ⟨listing_word [lit "a.example.com"] (by decide) (by decide) (by decide),
      .newline, listing_word [lit "b.example.com"] (by decide) (by decide) (by decide)⟩
  exact ⟨hblock, parse_addresses_iff hblock⟩

/-- **A line with two addresses and no blank between them is lost**: it becomes a statement, and the
site has the address of the next line only. -/
theorem parse_addresses_fused :
    AddressBlock (lit "a.example.com,b.example.com\nc.example.com \x7b\n\x7d\n")
      [.word (lit "a.example.com,b.example.com") false, .newline, .word (lit "c.example.com") false] [] ∧
    addressesOf [.word (lit "a.example.com,b.example.com") false, .newline,
      .word (lit "c.example.com") false] =
        [lit "a.example.com", lit "b.example.com", lit "c.example.com"] ∧
    parse (lit "a.example.com,b.example.com\nc.example.com \x7b\n\x7d\n") = some ⟨none,
      [⟨[lit "c.example.com"], []⟩], [.directive (lit "a.example.com,b.example.com") [] none]⟩ := by
  refine ⟨addressBlock_empty (by decide) ?_ (by decide), by decide,
    by decide +kernel⟩
  simp only [forall_mem_cons, not_mem_nil, false_imp_iff, implies_true, and_true]
  exact ⟨listing_word [lit "a.example.com", lit "b.example.com"] (by decide) (by decide)
    (by decide), .newline,
    listing_word [lit "c.example.com"] (by decide) (by decide) (by decide)⟩

end Cadishfile

end Cadish
