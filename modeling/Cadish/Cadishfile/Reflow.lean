import Cadish.Cadishfile.Format

/-!
# What formatting preserves

A source and its reflow are parsed side by side: statements and blocks are the same but for the
quotes that were added (`reflow_block`), and so is a file, provided that no site header hinges on a
semicolon or on a word that is quoted (`reflow_parseFile`).
-/

namespace Cadish

open List Option Bool

namespace Cadishfile

variable {start : Bool} {text : Str} {fuel : Nat}

/-! ## The same file, with quotes added -/

def Arg.requote (a : Arg) : Arg := ⟨a.raw, a.quoted || needsQuoting a.raw⟩

mutual

def Node.requote : Node → Node
  | .matcherDef name type args => .matcherDef name type (args.map Arg.requote)
  | .directive name args none => .directive name (args.map Arg.requote) none
  | .directive name args (some block) =>
    .directive name (args.map Arg.requote) (some (Node.requoteAll block))

def Node.requoteAll : List Node → List Node
  | [] => []
  | n :: body => n.requote :: Node.requoteAll body

end

def File.requote (f : File) : File :=
  ⟨f.globalOptions.map Node.requoteAll, f.sites.map fun s => ⟨s.addresses, Node.requoteAll s.body⟩,
    Node.requoteAll f.body⟩

mutual

/-- No matcher definition in the statement has a name that must be quoted. -/
def Node.defsBare : Node → Bool
  | .matcherDef name _ _ => !needsQuoting (Str.byte '@' :: name)
  | .directive _ _ none => true
  | .directive _ _ (some block) => Node.defsBareAll block

def Node.defsBareAll : List Node → Bool
  | [] => true
  | n :: body => n.defsBare && Node.defsBareAll body

end

def File.defsBare (f : File) : Bool :=
  Node.defsBareAll (f.globalOptions.getD []) && f.sites.all (fun s => Node.defsBareAll s.body) &&
    Node.defsBareAll f.body

/-! ## Separators -/

theorem skipSeparators_head (xs : List Lexeme) :
    ∀ x ∈ (skipSeparators xs).head?, x.isSeparator = false := by
  fun_induction skipSeparators xs with
  | case1 xs ih | case2 xs ih | case3 _ xs ih => exact ih
  | case4 xs hnewline hsemicolon hcomment =>
    intro x hx
    cases xs with
    | nil => cases hx
    | cons y xs =>
      cases hx
      cases x with
      | newline => exact absurd rfl (hnewline xs)
      | semicolon => exact absurd rfl (hsemicolon xs)
      | comment c => exact absurd rfl (hcomment c xs)
      | word | openBrace | closeBrace | eof => rfl

theorem skipSeparators_cons {x : Lexeme} (hx : x.isSeparator = true) (xs : List Lexeme) :
    skipSeparators (x :: xs) = skipSeparators xs := by
  cases x with
  | newline | semicolon | comment => rfl
  | word | openBrace | closeBrace | eof => cases hx

variable {rest xs : List Lexeme}

theorem skipSeparators_of_end (h : expectStatementEnd xs = some rest) :
    skipSeparators rest = skipSeparators xs := by
  obtain ⟨e, rfl, hend⟩ := expectStatementEnd_iff.mp h
  cases hend with
  | separator hx => exact (skipSeparators_cons hx rest).symm
  | closing => rfl

theorem skipSeparators_lineEnd (start : Bool) (xs : List Lexeme) :
    skipSeparators (lineEnd start ++ xs) = skipSeparators xs := by
  cases start <;> rfl

def Alike (xs ys : List Lexeme) : Prop := Reflow true (skipSeparators xs) (skipSeparators ys)

variable {ys : List Lexeme}

theorem Reflow.alike (h : Reflow start xs ys) : Alike xs ys := by
  unfold Alike
  induction h with
  | eof =>
    rw [skipSeparators_lineEnd]
    exact .eof
  | newline _ ih | semicolon _ ih =>
    rw [skipSeparators_lineEnd]
    exact ih
  | comment _ _ ih => exact ih
  | openBrace h => exact .openBrace h
  | openComment h => exact .openComment h
  | closeBrace h =>
    rw [skipSeparators_lineEnd]
    exact .closeBrace h
  | closeComment h =>
    rw [skipSeparators_lineEnd]
    exact .closeComment h
  | word h => exact .word h

/-! ## Statements -/

variable {n : Node}

theorem reflow_args {args : List Arg} (h : Reflow false (args.map Arg.lexeme ++ xs) ys) :
    ∃ zs, ys = (args.map Arg.requote).map Arg.lexeme ++ zs ∧ Reflow false xs zs := by
  induction args generalizing ys with
  | nil => exact ⟨ys, rfl, h⟩
  | cons a args ih =>
    cases h with
    | word h =>
      obtain ⟨zs, rfl, hzs⟩ := ih h
      exact ⟨zs, rfl, hzs⟩

theorem reflow_expectStatementEnd (h : Reflow false xs ys) (hend : expectStatementEnd xs = some rest) :
    ∃ rest', expectStatementEnd ys = some rest' ∧ Alike rest rest' := by
  -- a line that is open is ended in front of everything that ends a statement
  have hsome : ∃ rest', expectStatementEnd ys = some rest' := by
    cases h with
    | eof | newline | semicolon | comment | closeBrace | closeComment => exact ⟨_, rfl⟩
    | openBrace | openComment | word => cases hend
  obtain ⟨rest', hend'⟩ := hsome
  refine ⟨rest', hend', ?_⟩
  unfold Alike
  rw [skipSeparators_of_end hend, skipSeparators_of_end hend']
  exact h.alike

theorem isDefName_requote {quoted : Bool} (h : isDefName text quoted = false) :
    isDefName text (quoted || needsQuoting text) = false := by
  unfold isDefName at h ⊢
  cases quoted with
  | true => rfl
  | false =>
    rw [Bool.not_false, Bool.true_and] at h
    rw [h, Bool.and_false]

theorem hasPrefix_at (h : Str.hasPrefix text (lit "@") = true) :
    text = Str.byte '@' :: text.drop 1 := by
  obtain ⟨t, rfl⟩ := isPrefixOf_iff_prefix.mp h
  rfl

theorem reflow_plainStatement (hr : Reflow start xs ys) (h : plainStatement xs = some (n, rest))
    (hbare : n.defsBare = true) :
    ∃ rest', plainStatement ys = some (n.requote, rest') ∧ Alike rest rest' := by
  obtain ⟨q, e, hq, he, rfl⟩ := plainStatement_iff.mp h
  have hend := expectStatementEnd_iff.mpr ⟨e, rfl, he⟩
  cases hq with
  | @matcherDef text type quoted quoted' args hdef hok =>
    cases hr with
    | word hr =>
      cases hr with
      | word hr =>
        obtain ⟨zs, rfl, hzs⟩ := reflow_args hr
        obtain ⟨rest', hend', halike⟩ := reflow_expectStatementEnd hzs hend
        obtain ⟨e', rfl, he'⟩ := expectStatementEnd_iff.mp hend'
        have hname : needsQuoting text = false := by
          rw [hasPrefix_at (and_eq_true_iff.mp hdef).2]
          simpa only [Node.defsBare, not_eq_true'] using hbare
        have htype : needsQuoting type = false := by
          by_contra hneeds
          simp [badType, hneeds] at hok
        rw [hname, htype, Bool.or_false, Bool.or_false]
        exact ⟨rest', plainStatement_iff.mpr ⟨_, e', .matcherDef hdef hok, he', rfl⟩, halike⟩
  | @directive name quoted args hdef =>
    cases hr with
    | word hr =>
      obtain ⟨zs, rfl, hzs⟩ := reflow_args hr
      obtain ⟨rest', hend', halike⟩ := reflow_expectStatementEnd hzs hend
      obtain ⟨e', rfl, he'⟩ := expectStatementEnd_iff.mp hend'
      exact ⟨rest', plainStatement_iff.mpr ⟨_, e', .directive (isDefName_requote hdef), he', rfl⟩, halike⟩

/-! ## Blocks -/

theorem reflow_brace (h : Reflow start (.openBrace :: xs) ys) :
    ∃ zs, ys = .openBrace :: zs ∧ Alike xs zs := by
  cases h with
  | openBrace h | openComment h => exact ⟨_, rfl, h.alike⟩

theorem reflow_opensBlock {zs : List Lexeme} {name : Str} {args : List Arg} (hr : Reflow start xs ys)
    (h : OpensBlock xs name args zs) :
    ∃ us, OpensBlock ys name (args.map Arg.requote) us ∧ Alike zs us := by
  obtain ⟨quoted, hname, rfl⟩ := opensBlock_iff.mp h
  cases hr with
  | word hr =>
    obtain ⟨ws, rfl, hws⟩ := reflow_args hr
    obtain ⟨us, rfl, halike⟩ := reflow_brace hws
    exact ⟨us, opensBlock_iff.mpr ⟨_, isDefName_requote hname, rfl⟩, halike⟩

/-- Behind a block there is the end of a line. -/
def AfterBrace (ys : List Lexeme) : Prop := ∃ y zs, ys = y :: zs ∧ y.isSeparator = true

theorem Alike.statementEnd (h : Alike xs ys) (hys : AfterBrace ys)
    (hend : expectStatementEnd xs = some rest) :
    ∃ rest', expectStatementEnd ys = some rest' ∧ Alike rest rest' := by
  obtain ⟨y, zs, rfl, hy⟩ := hys
  have hend' : expectStatementEnd (y :: zs) = some zs :=
    expectStatementEnd_iff.mpr ⟨[y], rfl, .separator hy⟩
  refine ⟨zs, hend', ?_⟩
  rw [Alike, skipSeparators_of_end hend, skipSeparators_of_end hend']
  exact h

theorem reflow_block {depth : Nat} {body : List Node} (h : Block depth xs body rest) (hr : Alike xs ys)
    (hbare : Node.defsBareAll body = true) :
    ∃ rest', Block depth ys (Node.requoteAll body) rest' ∧ AfterBrace rest' ∧
      Alike rest rest' := by
  induction h generalizing ys with
  | close hdepth h =>
    rw [Alike, h] at hr
    generalize hys : skipSeparators ys = us at hr
    cases hr with
    | closeBrace hr | closeComment hr => exact ⟨_, .close hdepth hys, ⟨_, _, rfl, rfl⟩, hr.alike⟩
  | plain hdepth h _ ih =>
    simp only [Node.defsBareAll, and_eq_true] at hbare
    obtain ⟨zs, hplain, halike⟩ := reflow_plainStatement hr h hbare.1
    obtain ⟨rest', hblock, hafter, hrest⟩ := ih halike hbare.2
    exact ⟨rest', .plain hdepth hplain hblock, hafter, hrest⟩
  | nested hdepth h _ hend _ ihinner ih =>
    simp only [Node.defsBareAll, and_eq_true] at hbare
    obtain ⟨us, hopens, halike⟩ := reflow_opensBlock hr h
    obtain ⟨vs, hinner, hvs, halike⟩ := ihinner halike hbare.1
    obtain ⟨ws, hend', halike⟩ := halike.statementEnd hvs hend
    obtain ⟨rest', hblock, hafter, hrest⟩ := ih halike hbare.2
    exact ⟨rest', .nested hdepth hopens hinner hend' hblock, hafter, hrest⟩

theorem reflow_statement {depth : Nat} (h : Statement depth xs n rest) (hr : Reflow start xs ys)
    (hbare : n.defsBare = true) : ∃ rest', Statement depth ys n.requote rest' ∧ Alike rest rest' := by
  obtain h | ⟨name, args, zs, body, us, h, hblock, hend, rfl⟩ := h
  · obtain ⟨rest', hplain, halike⟩ := reflow_plainStatement hr h hbare
    exact ⟨rest', .inl hplain, halike⟩
  · obtain ⟨us, hopens, halike⟩ := reflow_opensBlock hr h
    obtain ⟨vs, hinner, hvs, halike⟩ := reflow_block hblock halike hbare
    obtain ⟨ws, hend', halike⟩ := halike.statementEnd hvs hend
    exact ⟨ws, .inr ⟨name, _, us, _, _, hopens, hinner, hend', rfl⟩, halike⟩

/-! ## Sites -/

/-- The lexeme with nothing left of the source but what the formatter keeps on its line. -/
def Lexeme.respell : Lexeme → Lexeme
  | .semicolon => .newline
  | .word text quoted => .word text (quoted || needsQuoting text)
  | x => x

theorem reflow_headerAhead {addrList : Bool} (h : Reflow start xs ys)
    (hstart : start = true → addrList = true) :
    headerAhead addrList ys = headerAhead addrList (xs.map Lexeme.respell) := by
  -- the end of a line is not crossed where the words are no address list
  have hcross {start addrList : Bool} {xs ys : List Lexeme}
      (ih : ∀ {a : Bool}, (true = true → a = true) →
        headerAhead a ys = headerAhead a (xs.map Lexeme.respell))
      (hstart : start = true → addrList = true) :
      headerAhead addrList (lineEnd start ++ ys) =
        (addrList && headerAhead addrList (xs.map Lexeme.respell)) := by
    cases addrList with
    | true =>
      rw [← ih fun _ => rfl]
      cases start <;> rfl
    | false =>
      cases start with
      | true => exact absurd (hstart rfl) false_ne_true
      | false => rfl
  induction h generalizing addrList with
  | @eof start | @closeBrace start | @closeComment start =>
    cases start with
    | true => rfl
    | false => exact and_false _
  | newline _ ih | semicolon _ ih => exact hcross ih hstart
  | @comment start c xs ys hxs _ ih =>
    cases addrList with
    | true => exact ih fun _ => rfl
    | false =>
      obtain hxs | rfl := hxs
      · obtain ⟨zs, rfl⟩ := head?_eq_some_iff.mp hxs
        rfl
      · rfl
  | openBrace | openComment => rfl
  | word _ ih => exact ih fun h => by cases h

theorem reflow_startsSiteBlock (h : Reflow true xs ys) (hxs : ∀ x ∈ xs.head?, x.isSeparator = false) :
    startsSiteBlock ys = startsSiteBlock (xs.map Lexeme.respell) := by
  have hahead := @reflow_headerAhead true xs ys true h fun _ => rfl
  cases h with
  | newline | semicolon | comment => cases hxs _ rfl
  | eof | openBrace | openComment | closeBrace | closeComment => rfl
  | word h => exact congrArg (!isDefName _ _ && ·) hahead

theorem reflow_wrapAhead {sawSep : Bool} {clear : Nat} (h : Reflow start xs ys)
    (hstart : start = true → sawSep = true) (hwrap : wrapAhead clear sawSep ys = true) :
    wrapAhead clear sawSep xs = true := by
  have hcross {start sawSep : Bool} {clear : Nat} {ys : List Lexeme}
      (hstart : start = true → sawSep = true)
      (hwrap : wrapAhead clear sawSep (lineEnd start ++ ys) = true) :
      wrapAhead clear true ys = true := by
    cases start with
    | true =>
      rw [hstart rfl] at hwrap
      exact hwrap
    | false => exact hwrap
  induction h generalizing clear sawSep with
  | @eof start | @closeBrace start | @closeComment start => cases start <;> cases hwrap
  | newline _ ih | semicolon _ ih => exact ih (fun _ => rfl) (hcross hstart hwrap)
  | comment hxs _ ih =>
    have hxs' := @ih true _ (fun _ => rfl) hwrap
    obtain hxs | rfl := hxs
    · obtain ⟨zs, rfl⟩ := head?_eq_some_iff.mp hxs
      exact hxs'
    · cases hxs'
  | openBrace | openComment => exact hwrap
  | word _ ih =>
    simp only [wrapAhead, and_eq_true, not_eq_true', or_eq_false_iff] at hwrap ⊢
    exact ⟨⟨hwrap.1.1.1, hwrap.1.2⟩, ih (fun h => by cases h) hwrap.2⟩

theorem reflow_unseparatedAddrWrap (h : Reflow true xs ys) (hxs : ∀ x ∈ xs.head?, x.isSeparator = false)
    (hwrap : unseparatedAddrWrap xs = false) : unseparatedAddrWrap ys = false := by
  cases h with
  | newline | semicolon | comment => cases hxs _ rfl
  | eof | openBrace | openComment | closeBrace | closeComment => rfl
  | @word _ text quoted xs ys h =>
    by_contra hys
    simp only [unseparatedAddrWrap, not_eq_false, and_eq_true, not_eq_true',
      or_eq_false_iff] at hys
    obtain ⟨⟨⟨⟨hquoted, hneeds⟩, hat⟩, hclear⟩, hahead⟩ := hys
    -- the run begins with a word, so the flag at its beginning does not matter
    have hsource : wrapAhead 0 false (.word text quoted :: xs) = true := by
      simp only [wrapAhead, and_eq_true, not_eq_true'] at hahead ⊢
      exact ⟨⟨hquoted, hahead.1.2⟩, reflow_wrapAhead h (fun h => by cases h) hahead.2⟩
    rw [unseparatedAddrWrap, hat, hclear, hsource, hquoted] at hwrap
    cases hwrap

theorem siteHeader_lineEnd (start : Bool) (xs : List Lexeme) :
    siteHeader (lineEnd start ++ xs) = siteHeader xs := by
  cases start <;> rfl

theorem reflow_siteHeader {addrs : List Str} (hr : Reflow start xs ys)
    (h : siteHeader xs = some (addrs, rest)) :
    ∃ rest', siteHeader ys = some (addrs, rest') ∧ Alike rest rest' := by
  induction hr generalizing addrs with
  | eof | closeBrace | closeComment | semicolon => cases h
  | newline _ ih =>
    rw [siteHeader_lineEnd]
    exact ih h
  | comment _ _ ih => exact ih h
  | openBrace hr | openComment hr =>
    cases h
    exact ⟨_, rfl, hr.alike⟩
  | word _ ih =>
    obtain ⟨⟨addrs', rest₁⟩, h', hr⟩ := map_eq_some_iff.mp h
    cases hr
    obtain ⟨rest', hheader, halike⟩ := ih h'
    refine ⟨rest', ?_, halike⟩
    rw [siteHeader, hheader]
    rfl

/-! ## Files -/

/-- Where the loop of `parseFile` looks ahead: at the beginning of every site and statement. -/
def places : Nat → List Lexeme → List (List Lexeme)
  | 0, _ => []
  | fuel + 1, xs =>
    let ys := skipSeparators xs
    let rest :=
      if startsSiteBlock ys then (parseSite fuel ys).map (·.2)
      else (parseStatement (parseBlockBody fuel 1) ys).map (·.2)
    ys :: match rest with
      | some rest => places fuel rest
      | none => []

/-- The look ahead is the same where semicolons are ends of lines and quotes are added. -/
def headerKept (xs : List Lexeme) : Bool :=
  startsSiteBlock (xs.map Lexeme.respell) == startsSiteBlock xs

/-- The look ahead is the same in the whole file, behind the global options. -/
def headersKept (xs : List Lexeme) : Bool :=
  match skipSeparators xs with
  | .openBrace :: ys =>
    match parseBlockBody (ys.length + 1) 1 ys with
    | some (_, zs) => (places (zs.length + 1) zs).all headerKept
    | none => true
  | ys => (places (ys.length + 1) ys).all headerKept

theorem places_site {site : Site} (hstarts : startsSiteBlock (skipSeparators xs) = true)
    (h : parseSite fuel (skipSeparators xs) = some (site, rest)) :
    places (fuel + 1) xs = skipSeparators xs :: places fuel rest := by
  simp only [places, hstarts, if_true, h, map_some]

theorem places_statement (hstarts : startsSiteBlock (skipSeparators xs) = false)
    (h : parseStatement (parseBlockBody fuel 1) (skipSeparators xs) = some (n, rest)) :
    places (fuel + 1) xs = skipSeparators xs :: places fuel rest := by
  simp only [places, hstarts, false_eq_true, if_false, h, map_some]

theorem reflow_top {sites : List Site} {body : List Node} (h : Top xs sites body) (hr : Alike xs ys)
    (hfuel : xs.length < fuel) (hkept : (places fuel xs).all headerKept = true)
    (hsites : sites.all (fun s => Node.defsBareAll s.body) = true)
    (hbody : Node.defsBareAll body = true) :
    Top ys (sites.map fun s => ⟨s.addresses, Node.requoteAll s.body⟩) (Node.requoteAll body) := by
  induction h generalizing ys fuel with
  | @eof xs zs h =>
    rw [Alike, h] at hr
    generalize hys : skipSeparators ys = us at hr
    cases hr with
    | eof => exact .eof hys
  | @site xs zs us addrs inner body sites hstarts hheader haddrs hblock hrest ih =>
    cases fuel with
    | zero => cases hfuel
    | succ fuel =>
      have hskip := skipSeparators_length xs
      have hsite : parseSite fuel (skipSeparators xs) = some (⟨addrs, inner⟩, us) :=
        (parseSite_eq_some (by omega)).mpr ⟨zs, hheader, haddrs, hblock⟩
      rw [places_site hstarts hsite, all_cons, and_eq_true] at hkept
      rw [all_cons, and_eq_true] at hsites
      obtain ⟨zs', hheader', halike⟩ := reflow_siteHeader hr hheader
      obtain ⟨us', hblock', -, halike⟩ := reflow_block hblock halike hsites.1
      have hstarts' : startsSiteBlock (skipSeparators ys) = true := by
        rw [reflow_startsSiteBlock hr (skipSeparators_head xs), beq_iff_eq.mp hkept.1, hstarts]
      have hlt := siteHeader_length hheader
      have hlt' := hblock.length_lt
      exact .site hstarts' hheader' haddrs hblock'
        (ih halike (by omega) hkept.2 hsites.2 hbody)
  | @statement xs zs n body sites hstarts hwrap h hrest ih =>
    cases fuel with
    | zero => cases hfuel
    | succ fuel =>
      have hskip := skipSeparators_length xs
      rw [places_statement hstarts ((parseStatement_eq_some_statement (by omega)).mpr h),
        all_cons, and_eq_true] at hkept
      rw [Node.defsBareAll, and_eq_true] at hbody
      obtain ⟨zs', h', halike⟩ := reflow_statement h hr hbody.1
      have hstarts' : startsSiteBlock (skipSeparators ys) = false := by
        rw [reflow_startsSiteBlock hr (skipSeparators_head xs), beq_iff_eq.mp hkept.1, hstarts]
      have hlt := h.length_lt
      exact .statement hstarts' (reflow_unseparatedAddrWrap hr (skipSeparators_head xs) hwrap) h'
        (ih halike (by omega) hkept.2 hsites hbody.2)

theorem reflow_parseFile {f : File} (h : parseFile xs = some f) (hr : Reflow true xs ys)
    (hkept : headersKept xs = true) (hbare : f.defsBare = true) : parseFile ys = some f.requote := by
  obtain ⟨options, sites, body⟩ := f
  simp only [File.defsBare, and_eq_true] at hbare
  obtain ⟨⟨hoptions, hsites⟩, hbody⟩ := hbare
  have halike : Alike xs ys := hr.alike
  rw [parseFile_eq_some] at h ⊢
  obtain ⟨zs, inner, us, hopen, rfl, hblock, htop⟩ | ⟨hopen, rfl, htop⟩ := h
  · left
    rw [Alike, hopen] at halike
    obtain ⟨zs', hopen', halike⟩ := reflow_brace halike
    obtain ⟨us', hblock', -, halike⟩ := reflow_block hblock halike hoptions
    have hkept' : (places (us.length + 1) us).all headerKept = true := by
      simpa only [headersKept, hopen, (parseBlockBody_eq_some (Nat.lt_succ_self _)).mpr hblock]
        using hkept
    exact ⟨zs', Node.requoteAll inner, us', hopen', rfl, hblock',
      reflow_top htop halike (Nat.lt_succ_self _) hkept' hsites hbody⟩
  right
  have hopen' : ∀ zs, skipSeparators ys ≠ .openBrace :: zs := by
    intro zs hzs
    rw [Alike, hzs] at halike
    generalize hskip : skipSeparators xs = vs at halike
    have hhead := skipSeparators_head xs
    rw [hskip] at hhead
    cases halike with
    | newline | semicolon => cases hhead _ rfl
    | openBrace | openComment => exact hopen _ hskip
  have hkept' : (places ((skipSeparators xs).length + 1) (skipSeparators xs)).all headerKept =
      true := by
    unfold headersKept at hkept
    split at hkept
    case h_1 zs hzs => exact absurd hzs (hopen zs)
    case h_2 => exact hkept
  have halike' : Alike (skipSeparators xs) (skipSeparators ys) := by
    rw [Alike, skipSeparators_idem, skipSeparators_idem]
    exact halike
  exact ⟨hopen', rfl, reflow_top htop halike' (Nat.lt_succ_self _) hkept' hsites hbody⟩

/-- **Formatting preserves meaning**: a source that parses is formatted, and what is written parses to
the same global options, sites and statements. Bare arguments that must be quoted come back quoted;
nothing else changes, if the output does not begin with a byte order mark, no matcher is defined
under a name that must be quoted, and no site header hinges on a semicolon or on such quotes. -/
theorem parse_format {src : Str} {xs : List Lexeme} {f : File} (hxs : lexemes src = some xs)
    (hf : parse src = some f) (hbom : bomLed xs = false) (hbare : f.defsBare = true)
    (hkept : headersKept xs = true) :
    ∃ out, format src = some out ∧ parse out = some f.requote := by
  obtain ⟨out, ys, hformat, hys, hreflow⟩ := format_lexes hxs hf hbom
  refine ⟨out, hformat, ?_⟩
  rw [parse, hxs] at hf
  rw [parse, hys]
  exact reflow_parseFile hf hreflow hkept hbare

def sampleSource : Str := lit "a.com,\nb.com \x7b # both\nrespond C:\\ ; cache @m\n\x7d\n@m path /a\n"

theorem parse_format_sample :
    format sampleSource =
        some (lit "a.com,\nb.com \x7b # both\n    respond \"C:\\\\\"\n    cache @m\n\x7d\n@m path /a\n") ∧
      ∃ out, format sampleSource = some out ∧ parse out = some
        ⟨none, [⟨[lit "a.com", lit "b.com"],
          [.directive (lit "respond") [⟨lit "C:\\", true⟩] none,
            .directive (lit "cache") [⟨lit "@m", false⟩] none]⟩],
          [.matcherDef (lit "m") (lit "path") [⟨lit "/a", false⟩]]⟩ :=
  ⟨by decide +kernel, parse_format (f := ⟨none, [⟨[lit "a.com", lit "b.com"],
      [.directive (lit "respond") [⟨lit "C:\\", false⟩] none,
        .directive (lit "cache") [⟨lit "@m", false⟩] none]⟩],
      [.matcherDef (lit "m") (lit "path") [⟨lit "/a", false⟩]]⟩)
    (some_get (x := lexemes sampleSource) (by decide)).symm (by decide +kernel)
    (by decide) (by decide) (by decide)⟩

theorem format_changes_file :
    (parse (lit "respond C:\\") =
        some ⟨none, [], [.directive (lit "respond") [⟨lit "C:\\", false⟩] none]⟩ ∧
      format (lit "respond C:\\") = some (lit "respond \"C:\\\\\"\n") ∧
      parse (lit "respond \"C:\\\\\"\n") =
        some ⟨none, [], [.directive (lit "respond") [⟨lit "C:\\", true⟩] none]⟩) ∧
    (parse (lit "a,;b \x7b\n\x7d\n") =
        some ⟨none, [⟨[lit "b"], []⟩], [.directive (lit "a,") [] none]⟩ ∧
      format (lit "a,;b \x7b\n\x7d\n") = some (lit "a,\nb \x7b\n\x7d\n") ∧
      parse (lit "a,\nb \x7b\n\x7d\n") = some ⟨none, [⟨[lit "a", lit "b"], []⟩], []⟩) := by
  decide +kernel

end Cadishfile

end Cadish
