import Cadish.Edge.Regex

/-!
# Portable regexes

**A pattern in which both dialects read every item alike is projected soundly**
(`regex_projection_sound`): the two lexers are compared item by item, and the flags in front of the
pattern are those beside it. Other patterns are not: `\A/admin` asks the worker for an `A`
(`regex_projected_otherwise`).
-/

namespace Cadish.Edge

open Regex List Option Dialect FlagGroup
open Str (byte hasPrefix)

variable {c b : UInt8} {s rest flags src : Str} {fl : Flags} {fs : List Flags}

/-! ## Escapes -/

theorem ne_of_bool {p : UInt8 → Bool} {l : UInt8} (hc : p c = false) (hl : p l = true) : c ≠ l := by
  rintro rfl
  rw [hc] at hl
  cases hl

theorem sharedClass_of_not_alnum (hc : isAlnum c = false) : sharedClass c = none := by
  have hne {l : UInt8} : isAlnum l = true → c ≠ l := ne_of_bool hc
  rw [sharedClass, if_neg (hne (by decide)), if_neg (hne (by decide)), if_neg (hne (by decide)),
    if_neg (hne (by decide))]

theorem controlEscape_of_not_alnum (hc : isAlnum c = false) : controlEscape c = none := by
  have hne {l : UInt8} (hl : isAlnum l = true) : (c == l) = false :=
    beq_eq_false_iff_ne.mpr (ne_of_bool hc hl)
  simp [controlEscape, lookup_cons, hne (l := byte 't') (by decide),
    hne (l := byte 'n') (by decide), hne (l := byte 'v') (by decide),
    hne (l := byte 'f') (by decide), hne (l := byte 'r') (by decide)]

inductive EscapeAlike (c : UInt8) (s rest : Str) : Prop
  | set (set : ByteSet) : (lit "dDwW").elem c = true → re2Class c = some set →
      ecmaClass c = some set → rest = s → EscapeAlike c s rest
  | char (code : Nat) : re2Class c = none → ecmaClass c = none →
      re2Char (c :: s) = some (code, rest) → ecmaChar (c :: s) = some (code, rest) →
      EscapeAlike c s rest

theorem hexPair_head {e : Nat × Str} (h : hexPair s = some e) : s.head? ≠ some (byte '{') := by
  intro hhead
  obtain ⟨t, rfl⟩ := head?_eq_some_iff.mp hhead
  cases t with
  | nil | cons y t => cases h

theorem escapeAlike_of_portable (h : portableEscape (c :: s) = some rest) : EscapeAlike c s rest := by
  rw [portableEscape] at h
  split at h
  · next hc =>
    obtain rfl : s = rest := some.inj h
    rw [Bool.or_eq_true, elem_eq_mem, decide_eq_true_iff] at hc
    rcases hc with hc | hc
    · have hletters : portableLetters = [byte 'd', byte 'D', byte 'w', byte 'W',
          byte 't', byte 'n', byte 'v', byte 'f', byte 'r'] := by decide
      rw [hletters] at hc
      simp only [mem_cons, not_mem_nil, or_false] at hc
      rcases hc with rfl | rfl | rfl | rfl | rfl | rfl | rfl | rfl | rfl
      · exact .set _ rfl rfl rfl rfl
      · exact .set _ rfl rfl rfl rfl
      · exact .set _ rfl rfl rfl rfl
      · exact .set _ rfl rfl rfl rfl
      · exact .char _ rfl rfl rfl rfl
      · exact .char _ rfl rfl rfl rfl
      · exact .char _ rfl rfl rfl rfl
      · exact .char _ rfl rfl rfl rfl
      · exact .char _ rfl rfl rfl rfl
    · rw [Bool.and_eq_true, decide_eq_true_iff, Bool.not_eq_true'] at hc
      obtain ⟨hascii, hc⟩ := hc
      have hne {l : UInt8} : isAlnum l = true → c ≠ l := ne_of_bool hc
      have hdigit : isDigit c = false := by
        rw [isAlnum, Bool.or_assoc, Bool.or_eq_false_iff] at hc
        exact hc.1
      have hoct : ∀ hi ≤ byte '9', ∀ lo ≥ byte '0', ¬(lo ≤ c ∧ c ≤ hi) := by
        intro hi hhi lo hlo hin
        rw [isDigit, Bool.and_eq_false_iff, decide_eq_false_iff_not, decide_eq_false_iff_not] at hdigit
        rcases hdigit with hlow | hhigh
        · exact hlow (UInt8.le_trans hlo hin.1)
        · exact hhigh (UInt8.le_trans hin.2 hhi)
      refine .char c.toNat ?_ ?_ ?_ ?_
      · rw [re2Class, if_neg (hne (by decide)), if_neg (hne (by decide)), sharedClass_of_not_alnum hc]
      · rw [ecmaClass, if_neg (hne (by decide)), if_neg (hne (by decide)), sharedClass_of_not_alnum hc]
      · rw [re2Char, if_neg (hoct _ (by decide) _ (by decide)), if_neg (hne (by decide)),
          if_neg (hne (by decide)), controlEscape_of_not_alnum hc]
        exact if_pos ⟨hascii, hc⟩
      · simp only [ecmaChar, controlEscape_of_not_alnum hc]
        rw [if_neg (hne (by decide)), if_neg (hne (by decide)), if_neg (hne (by decide)),
          if_neg (hoct _ (by decide) _ (by decide)), if_neg (hoct _ (by decide) _ (by decide))]
  · split at h
    · next hx =>
      obtain ⟨⟨code, rest'⟩, hpair, rfl⟩ := map_eq_some_iff.mp h
      subst hx
      refine .char code rfl rfl ?_ ?_
      · rw [re2Char, if_neg (by decide), if_pos rfl, if_neg (hexPair_head hpair), hpair]
      · have hx : ecmaChar (byte 'x' :: s) = some ((hexPair s).getD (120, s)) := rfl
        rw [hx, hpair]
        rfl
    · cases h

theorem classEscape_alike (h : portableEscape (c :: s) = some rest) :
    ∃ a, re2.classEscape (c :: s) = some (a, rest) ∧ ecma.classEscape (c :: s) = some (a, rest) := by
  have hb : c ≠ byte 'b' := by
    rintro rfl
    cases h
  have hc : c ≠ byte 'c' := by
    rintro rfl
    cases h
  cases escapeAlike_of_portable h with
  | set set _ hre2 hecma hrest =>
    subst hrest
    refine ⟨.set set, ?_, ?_⟩
    · simp only [re2, hre2]
    · simp only [ecma, hb, hc, false_and, if_false, hecma]
  | char code hre2 hecma hre2Char hecmaChar =>
    refine ⟨.char code, ?_, ?_⟩
    · simp only [re2, hre2, hre2Char, map_some]
    · simp only [ecma, hb, hc, false_and, if_false, hecma, hecmaChar, map_some]

theorem escape_alike (fl : Flags) (h : portableEscape (c :: s) = some rest) :
    ∃ toks, re2.escape fl (c :: s) = some (toks, rest) ∧ ecma.escape fl (c :: s) = some (toks, rest) := by
  have hne {l : UInt8} (hl : portableEscape (l :: s) = none) : c ≠ l := by
    rintro rfl
    rw [hl] at h
    cases h
  have hA : c ≠ byte 'A' := hne rfl
  have hz : c ≠ byte 'z' := hne rfl
  have hb : c ≠ byte 'b' := hne rfl
  have hB : c ≠ byte 'B' := hne rfl
  have hQ : c ≠ byte 'Q' := hne rfl
  cases escapeAlike_of_portable h with
  | set set _ hre2 hecma hrest =>
    subst hrest
    refine ⟨[.atom set], ?_, ?_⟩
    · simp only [re2, re2Escape, hA, hz, hb, hB, hQ, if_false, hre2]
    · simp only [ecma, ecmaEscape, hb, hB, if_false, hecma]
  | char code hre2 hecma hre2Char hecmaChar =>
    refine ⟨[single fl code], ?_, ?_⟩
    · simp only [re2, re2Escape, hA, hz, hb, hB, hQ, if_false, hre2, hre2Char, map_some]
    · simp only [ecma, ecmaEscape, hb, hB, if_false, hecma, hecmaChar, map_some]

/-! ## Classes -/

theorem classAtom_alike (h : portableAtom s = some rest) :
    ∃ a, re2.classAtom s = some (a, rest) ∧ ecma.classAtom s = some (a, rest) ∧
      (isSetEscape s = false → ∃ code, a = .char code) := by
  cases s with
  | nil => cases h
  | cons b s =>
    rw [portableAtom] at h
    by_cases hb : b = byte '\\'
    · rw [if_pos hb] at h
      cases s with
      | nil => cases h
      | cons c s =>
        have hclass (D : Dialect) : D.classAtom (b :: c :: s) = D.classEscape (c :: s) := if_pos hb
        rw [hclass, hclass]
        obtain ⟨a, hre2, hecma⟩ := classEscape_alike h
        refine ⟨a, hre2, hecma, fun hset => ?_⟩
        cases escapeAlike_of_portable h with
        | set set hc =>
          have hset : ((b == byte '\\') && (lit "dDwW").elem c) = false := hset
          rw [hb, hc] at hset
          cases hset
        | char code hnone _ hchar =>
          simp only [re2, hnone, hchar, map_some, some.injEq, Prod.mk.injEq] at hre2
          exact ⟨code, hre2.1.symm⟩
    · rw [if_neg hb] at h
      obtain rfl : s = rest := some.inj h
      have hclass (D : Dialect) : D.classAtom (b :: s) = some (.char b.toNat, s) := if_neg hb
      exact ⟨.char b.toNat, hclass _, hclass _, fun _ => ⟨_, rfl⟩⟩

theorem re2ClassSet_of_not (h : hasPrefix s (lit "[:") = false) : re2ClassSet s = none := by
  cases s with
  | nil => rfl
  | cons b s =>
    cases s with
    | nil => rfl
    | cons c s =>
      rw [re2ClassSet, if_neg]
      rintro ⟨rfl, rfl⟩
      cases h

theorem classItem_alike (h : portableClassItem s = some rest) :
    ecma.classItem s = none ∨
      ∃ sets, re2.classItem s = some (sets, rest) ∧ ecma.classItem s = some (sets, rest) := by
  rw [portableClassItem] at h
  split at h
  · cases h
  next hset =>
  have hre2Set : re2.classSet s = none := re2ClassSet_of_not (Bool.eq_false_iff.mpr hset)
  have hecmaSet : ecma.classSet s = none := rfl
  cases hatom : portableAtom s with
  | none =>
    rw [hatom] at h
    cases h
  | some mid =>
    rw [hatom] at h
    simp only at h
    obtain ⟨lo, hre2Lo, hecmaLo, hloChar⟩ := classAtom_alike hatom
    cases hrange : rangeRest mid with
    | none =>
      rw [hrange] at h
      obtain rfl : mid = rest := some.inj h
      refine .inr ⟨[atomSet lo], ?_, ?_⟩
      · simp only [classItem, hre2Set, hre2Lo, hrange]
      · simp only [classItem, hecmaSet, hecmaLo, hrange]
    | some hiText =>
      rw [hrange] at h
      simp only at h
      split at h
      · cases h
      next hsets =>
      rw [Bool.or_eq_true, not_or, Bool.not_eq_true, Bool.not_eq_true] at hsets
      obtain ⟨lo, rfl⟩ := hloChar hsets.1
      obtain ⟨hi, hre2Hi, hecmaHi, hhiChar⟩ := classAtom_alike h
      obtain ⟨hi, rfl⟩ := hhiChar hsets.2
      by_cases hle : lo ≤ hi
      · refine .inr ⟨[fun b => lo ≤ b.toNat && b.toNat ≤ hi], ?_, ?_⟩
        · simp only [classItem, hre2Set, hre2Lo, hrange, hre2Hi, if_pos hle]
        · simp only [classItem, hecmaSet, hecmaLo, hrange, hecmaHi, if_pos hle]
      · refine .inl ?_
        simp only [classItem, hecmaSet, hecmaLo, hrange, hecmaHi, if_neg hle]

variable (D : Dialect) {n : Nat} {pattern seen : Str}

theorem classItems_alike {first : Bool} (h : portableClass n first s = some rest) :
    ecma.classItems n first s = none ∨ ∃ sets, re2.classItems n first s = some (sets, rest) ∧
      ecma.classItems n first s = some (sets, rest) := by
  induction n generalizing first s with
  | zero => cases h
  | succ n ih =>
    rw [portableClass] at h
    by_cases hclose : s.head? = some (byte ']')
    · rw [if_pos hclose] at h
      split at h
      · cases h
      next hfirst =>
      obtain rfl : s.tail = rest := some.inj h
      have hD (D : Dialect) : D.classItems (n + 1) first s = some ([], s.tail) :=
        if_pos ⟨hclose, fun hlead => hfirst hlead.1⟩
      exact .inr ⟨[], hD _, hD _⟩
    rw [if_neg hclose] at h
    have hD (D : Dialect) : D.classItems (n + 1) first s =
        (D.classItem s).bind fun r =>
          (D.classItems n false r.2).map fun more => (r.1 ++ more.1, more.2) := by
      rw [classItems, if_neg fun hin => hclose hin.1]
      cases D.classItem s <;> rfl
    rw [hD, hD]
    cases hitem : portableClassItem s with
    | none =>
      rw [hitem] at h
      cases h
    | some mid =>
      rw [hitem] at h
      rcases classItem_alike hitem with hnone | ⟨sets, hre2, hecma⟩
      · exact .inl (by rw [hnone, bind_none])
      rw [hre2, hecma]
      rcases ih h with hnone | ⟨more, hre2, hecma⟩
      · exact .inl (by simp [hnone])
      · exact .inr ⟨sets ++ more, by simp [hre2],
          by simp [hecma]⟩

theorem charClass_alike (fl : Flags)
    (h : portableClass ((if s.head? = some (byte '^') then s.tail else s).length + 1) true
      (if s.head? = some (byte '^') then s.tail else s) = some rest) :
    ecma.charClass fl s = none ∨
      ∃ tok, re2.charClass fl s = some (tok, rest) ∧ ecma.charClass fl s = some (tok, rest) := by
  rcases classItems_alike h with hnone | ⟨sets, hre2, hecma⟩
  · refine .inl ?_
    rw [charClass, map_eq_none_iff]
    exact hnone
  · exact .inr ⟨_, map_eq_some_iff.mpr ⟨_, hre2, rfl⟩,
      map_eq_some_iff.mpr ⟨_, hecma, rfl⟩⟩

/-! ## Items -/

theorem braces_alike (h : portableBraces s = true) :
    ecmaBraces s = .refused ∨ re2Braces s = ecmaBraces s := by
  rw [portableBraces] at h
  rw [re2Braces, ecmaBraces]
  cases hparts : braceParts s with
  | none => exact .inr rfl
  | some e =>
    obtain ⟨lo, hi, rest⟩ := e
    rw [hparts] at h
    simp only [Bool.and_eq_true, Bool.not_eq_true', decide_eq_true_iff] at h
    obtain ⟨⟨hzero, hleast⟩, hmost⟩ := h
    simp only
    by_cases hover : ((braceBounds lo hi).2.any fun n => (braceBounds lo hi).1 > n) = true
    · exact .inl (if_pos hover)
    refine .inr ?_
    rw [if_neg (by rw [hzero]; exact Bool.false_ne_true), if_neg, if_neg hover]
    rintro (hbig | hbig)
    · omega
    · cases hbound : (braceBounds lo hi).2 with
      | none =>
        rw [hbound] at hbig
        cases hbig
      | some n =>
        rw [hbound] at hbig hmost hover
        simp only [any_some, Bool.or_eq_true, decide_eq_true_iff, decide_eq_false_iff_not] at *
        omega

theorem next_escape (hfs : Steady fl fs) (s : Str) :
    D.next fs (byte '\\' :: s) = (D.escape fl s).map fun e => (e.1, fs, e.2) := by
  rw [← hfs.headD]
  rfl

theorem next_class (hfs : Steady fl fs) (s : Str) :
    D.next fs (byte '[' :: s) = (D.charClass fl s).map fun e => ([e.1], fs, e.2) := by
  rw [← hfs.headD]
  rfl

theorem next_braces (hfs : Steady fl fs) (s : Str) :
    D.next fs (byte '{' :: s) =
      match D.braces s with
      | .quantifier least most rest => some ([.rep least most], fs, dropLazy rest)
      | .literal => some ([single fl (byte '{').toNat], fs, s)
      | .refused => none := by
  rw [← hfs.headD]
  rfl

theorem readsItem_escape (h : portableItem fl (byte '\\' :: s) = some rest) :
    ReadsItem re2 ecma fl (byte '\\' :: s) rest := by
  intro fs hfs
  rw [next_escape _ hfs, next_escape _ hfs]
  cases s with
  | nil => cases h
  | cons c s =>
    have hitem : portableItem fl (byte '\\' :: c :: s) =
        if (lit "bB").elem c then some s else portableEscape (c :: s) := rfl
    rw [hitem] at h
    by_cases hb : (lit "bB").elem c = true
    · rw [if_pos hb] at h
      obtain rfl : s = rest := some.inj h
      have hletters : lit "bB" = [byte 'b', byte 'B'] := rfl
      have hb := mem_of_elem_eq_true hb
      rw [hletters, mem_pair] at hb
      rcases hb with rfl | rfl
      · exact .inr ⟨_, fs, rfl, rfl, hfs⟩
      · exact .inr ⟨_, fs, rfl, rfl, hfs⟩
    · rw [if_neg hb] at h
      obtain ⟨toks, hre2, hecma⟩ := escape_alike fl h
      exact .inr ⟨toks, fs, by rw [hre2]; rfl, by rw [hecma]; rfl, hfs⟩

theorem readsItem_class (h : portableItem fl (byte '[' :: s) = some rest) :
    ReadsItem re2 ecma fl (byte '[' :: s) rest := by
  intro fs hfs
  rw [next_class _ hfs, next_class _ hfs]
  rcases charClass_alike fl h with hnone | ⟨tok, hre2, hecma⟩
  · exact .inl (by rw [hnone]; rfl)
  · exact .inr ⟨[tok], fs, by rw [hre2]; rfl, by rw [hecma]; rfl, hfs⟩

theorem readsItem_braces (h : portableItem fl (byte '{' :: s) = some rest) :
    ReadsItem re2 ecma fl (byte '{' :: s) rest := by
  intro fs hfs
  rw [next_braces _ hfs, next_braces _ hfs]
  have hitem : portableItem fl (byte '{' :: s) =
      if portableBraces s then
        match ecmaBraces s with
        | .quantifier _ _ rest => some (dropLazy rest)
        | .literal => some s
        | .refused => none
      else none := rfl
  rw [hitem] at h
  split at h
  · next hbraces =>
    have hre2 : re2.braces s = re2Braces s := rfl
    have hecma : ecma.braces s = ecmaBraces s := rfl
    rw [hre2, hecma]
    rcases braces_alike hbraces with hrefused | heq
    · exact .inl (by rw [hrefused])
    rw [heq]
    cases hkind : ecmaBraces s with
    | refused => exact .inl rfl
    | literal =>
      rw [hkind] at h
      obtain rfl : s = rest := some.inj h
      exact .inr ⟨_, fs, rfl, rfl, hfs⟩
    | quantifier least most rest' =>
      rw [hkind] at h
      obtain rfl : dropLazy rest' = rest := some.inj h
      exact .inr ⟨_, fs, rfl, rfl, hfs⟩
  · cases h

theorem readsItem_group (h : portableItem fl (byte '(' :: s) = some rest) :
    ReadsItem re2 ecma fl (byte '(' :: s) rest := by
  intro fs hfs
  have hitem : portableItem fl (byte '(' :: s) =
      if s.head? = some (byte '?') then
        if s.tail.head? = some (byte ':') then some s.tail.tail else none
      else some s := rfl
  have hD (D : Dialect) : D.next fs (byte '(' :: s) =
      if s.head? = some (byte '?') then D.group fs s.tail
      else some ([.opens], fs.headD {} :: fs, s) := rfl
  rw [hitem] at h
  rw [hD, hD, hfs.headD]
  split at h
  · next hmark =>
    rw [if_pos hmark, if_pos hmark]
    split at h
    · next hcolon =>
      obtain rfl : s.tail.tail = rest := some.inj h
      obtain ⟨t, ht⟩ := head?_eq_some_iff.mp hcolon
      rw [ht]
      refine .inr ⟨[.opens], fl :: fs, ?_, ?_, hfs.cons⟩
      · have hgroup : re2.group fs (byte ':' :: t) = some ([.opens], fs.headD {} :: fs, t) := rfl
        rw [hgroup, hfs.headD]
        rfl
      · have hgroup : ecma.group fs (byte ':' :: t) = some ([.opens], fs.headD {} :: fs, t) := rfl
        rw [hgroup, hfs.headD]
        rfl
    · cases h
  · next hmark =>
    rw [if_neg hmark, if_neg hmark]
    obtain rfl : s = rest := some.inj h
    exact .inr ⟨[.opens], fl :: fs, rfl, rfl, hfs.cons⟩

theorem readsItem_dot (h : portableItem fl (byte '.' :: s) = some rest) :
    ReadsItem re2 ecma fl (byte '.' :: s) rest := by
  intro fs hfs
  have hitem : portableItem fl (byte '.' :: s) = if fl.s then some s else none := rfl
  have hD (D : Dialect) : D.next fs (byte '.' :: s) =
      some ([.atom (D.dot (fs.headD {}))], fs, s) := rfl
  rw [hitem] at h
  rw [hD, hD, hfs.headD]
  split at h
  · next hs =>
    obtain rfl : s = rest := some.inj h
    have hdot : re2.dot fl = ecma.dot fl := by
      funext b
      simp only [re2, ecma, hs, Bool.true_or]
    rw [hdot]
    exact .inr ⟨_, fs, rfl, rfl, hfs⟩
  · cases h

theorem readsItem_anchor (hb : b = byte '^' ∨ b = byte '$')
    (h : portableItem fl (b :: s) = some rest) : ReadsItem re2 ecma fl (b :: s) rest := by
  intro fs hfs
  have hitem : portableItem fl (b :: s) = if fl.m then none else some s := by
    rcases hb with rfl | rfl
    · rfl
    · rfl
  rw [hitem] at h
  split at h
  · cases h
  next hm =>
  obtain rfl : s = rest := some.inj h
  rcases hb with rfl | rfl
  · have hD (D : Dialect) : D.next fs (byte '^' :: s) =
        some ([.look (D.lineStart (fs.headD {}))], fs, s) := rfl
    have hstart : re2.lineStart fl = ecma.lineStart fl := by
      funext before after
      simp only [re2, ecma, hm, Bool.false_and]
    rw [hD, hD, hfs.headD, hstart]
    exact .inr ⟨_, fs, rfl, rfl, hfs⟩
  · have hD (D : Dialect) : D.next fs (byte '$' :: s) =
        some ([.look (D.lineEnd (fs.headD {}))], fs, s) := rfl
    have hend : re2.lineEnd fl = ecma.lineEnd fl := by
      funext before after
      simp only [re2, ecma, hm, Bool.false_and]
    rw [hD, hD, hfs.headD, hend]
    exact .inr ⟨_, fs, rfl, rfl, hfs⟩

def isOperator (b : UInt8) : Bool := (lit "\\[.^$()|*+?\x7b").elem b

theorem next_literal (hfs : Steady fl fs) (hb : isOperator b = false) (s : Str) :
    D.next fs (b :: s) = some ([single fl b.toNat], fs, s) := by
  have hne {l : UInt8} : isOperator l = true → b ≠ l := ne_of_bool hb
  rw [Dialect.next, hfs.headD]
  simp only [hne (l := byteOf '\\') rfl, hne (l := byteOf '[') rfl, hne (l := byteOf '.') rfl,
    hne (l := byteOf '^') rfl, hne (l := byteOf '$') rfl, hne (l := byteOf '(') rfl,
    hne (l := byteOf ')') rfl, hne (l := byteOf '|') rfl, hne (l := byteOf '*') rfl,
    hne (l := byteOf '+') rfl, hne (l := byteOf '?') rfl, hne (l := byteOf '{') rfl, if_false]

theorem portableItem_literal (hb : isOperator b = false) (s : Str) :
    portableItem fl (b :: s) = some s := by
  have hne {l : UInt8} : isOperator l = true → b ≠ l := ne_of_bool hb
  simp only [portableItem, hne (l := byte '\\') rfl, hne (l := byte '[') rfl,
    hne (l := byte '.') rfl, hne (l := byte '^') rfl, hne (l := byte '$') rfl,
    hne (l := byte '(') rfl, hne (l := byte '*') rfl, hne (l := byte '+') rfl,
    hne (l := byte '?') rfl, hne (l := byte '{') rfl, or_false, if_false]

theorem readsItem_of_portable (h : portableItem fl s = some rest) : ReadsItem re2 ecma fl s rest := by
  cases s with
  | nil => cases h
  | cons b s =>
    by_cases hb : isOperator b = false
    · intro fs hfs
      rw [portableItem_literal hb] at h
      obtain rfl : s = rest := some.inj h
      exact .inr ⟨_, fs, next_literal _ hfs hb s, next_literal _ hfs hb s, hfs⟩
    have hoperators : lit "\\[.^$()|*+?\x7b" = [byte '\\', byte '[', byte '.',
        byte '^', byte '$', byte '(', byte ')', byte '|', byte '*',
        byte '+', byte '?', byte '{'] := rfl
    have hmem := mem_of_elem_eq_true (Bool.not_eq_false _ ▸ hb : isOperator b = true)
    rw [hoperators] at hmem
    simp only [mem_cons, not_mem_nil, or_false] at hmem
    rcases hmem with rfl | rfl | rfl | rfl | rfl | rfl | rfl | rfl | rfl | rfl | rfl | rfl
    · exact readsItem_escape h
    · exact readsItem_class h
    · exact readsItem_dot h
    · exact readsItem_anchor (.inl rfl) h
    · exact readsItem_anchor (.inr rfl) h
    · exact readsItem_group h
    · intro fs hfs
      obtain rfl : s = rest := some.inj h
      exact .inr ⟨_, _, rfl, rfl, hfs.pop⟩
    · intro fs hfs
      obtain rfl : s = rest := some.inj h
      exact .inr ⟨_, fs, rfl, rfl, hfs⟩
    · intro fs hfs
      obtain rfl : dropLazy s = rest := some.inj h
      exact .inr ⟨_, fs, rfl, rfl, hfs⟩
    · intro fs hfs
      obtain rfl : dropLazy s = rest := some.inj h
      exact .inr ⟨_, fs, rfl, rfl, hfs⟩
    · intro fs hfs
      obtain rfl : dropLazy s = rest := some.inj h
      exact .inr ⟨_, fs, rfl, rfl, hfs⟩
    · exact readsItem_braces h

theorem reads_of_portable (h : portable fl n s = true) : Reads re2 ecma fl s := by
  induction n generalizing s with
  | zero =>
    cases s with
    | nil => exact .nil
    | cons b s => cases h
  | succ n ih =>
    cases s with
    | nil => exact .nil
    | cons b s =>
      cases hitem : portableItem fl (b :: s) with
      | none =>
        simp only [portable, hitem] at h
        cases h
      | some rest =>
        simp only [portable, hitem] at h
        exact .item (readsItem_of_portable hitem) (ih h)

/-! ## The flags -/

theorem flagGroup_eq (h : flagGroup s = some (flags, rest)) : s = flags ++ byte ')' :: rest := by
  induction s generalizing flags with
  | nil => cases h
  | cons b s ih =>
    rw [flagGroup] at h
    split at h
    · next hb =>
      rw [some.injEq, Prod.mk.injEq] at h
      rw [← h.1, ← h.2, hb]
      rfl
    · split at h
      · obtain ⟨⟨flags', rest'⟩, hgroup, he⟩ := map_eq_some_iff.mp h
        obtain ⟨rfl, rfl⟩ := he
        rw [ih hgroup]
        rfl
      · cases h

theorem put_flagsOf {f : UInt8} (saw : Bool) (hf : (lit "ims").elem f = true) :
    (mk (flagsOf seen) false saw).put f =
      some ⟨flagsOf (if seen.elem f then seen else seen ++ [f]), false, true⟩ := by
  have hletters : lit "ims" = [byte 'i', byte 'm', byte 's'] := rfl
  have hf := mem_of_elem_eq_true hf
  rw [hletters] at hf
  simp only [mem_cons, not_mem_nil, or_false] at hf
  have him : byte 'i' ≠ byte 'm' := by decide
  have his : byte 'i' ≠ byte 's' := by decide
  have hms : byte 'm' ≠ byte 's' := by decide
  rcases hf with rfl | rfl | rfl
  · by_cases hseen : byte 'i' ∈ seen
    · simp [put, flagsOf, hseen]
    · simp [put, flagsOf, hseen, him.symm, his.symm]
  · by_cases hseen : byte 'm' ∈ seen
    · simp [put, flagsOf, hseen, him.symm]
    · simp [put, flagsOf, hseen, him, him.symm, hms.symm]
  · by_cases hseen : byte 's' ∈ seen
    · simp [put, flagsOf, hseen, his.symm, hms.symm]
    · simp [put, flagsOf, hseen, his, his.symm, hms, hms.symm]

theorem re2FlagGroup_of_js {js : Str} (saw : Bool) (h : re2FlagsToJS seen flags = some js) :
    re2FlagGroup fs ⟨flagsOf seen, false, saw⟩ (flags ++ byte ')' :: rest) =
      some ([], flagsOf js :: fs.tail, rest) := by
  induction flags generalizing seen saw with
  | nil =>
    obtain rfl : seen = js := some.inj h
    rfl
  | cons f flags ih =>
    rw [re2FlagsToJS] at h
    split at h
    · next hf =>
      have hne {l : UInt8} (hl : (lit "ims").elem l = false) : f ≠ l :=
        (ne_of_bool (p := (lit "ims").elem) hl hf).symm
      rw [cons_append, re2FlagGroup, if_neg (hne (by decide)),
        if_neg (by rintro (hcolon | hclose); exacts [hne (by decide) hcolon, hne (by decide) hclose]),
        put_flagsOf saw hf]
      exact ih true h
    · cases h

theorem leadingFlagGroup_eq {flags rest : Str} (h : leadingFlagGroup src = some (flags, rest)) :
    src = lit "(?" ++ (flags ++ byte ')' :: rest) ∧ flags ≠ [] := by
  rw [leadingFlagGroup] at h
  split at h
  · next hprefix =>
    obtain ⟨t, rfl⟩ := isPrefixOf_iff_prefix.mp hprefix
    have hdrop : (lit "(?" ++ t).drop 2 = t := rfl
    rw [hdrop] at h
    cases hgroup : flagGroup t with
    | none =>
      rw [hgroup] at h
      cases h
    | some e =>
      rw [hgroup] at h
      simp only at h
      split at h
      · cases h
      · next hne =>
        rw [some.injEq, Prod.mk.injEq] at h
        rw [← h.1, ← h.2, flagGroup_eq hgroup]
        exact ⟨rfl, hne⟩
  · cases h

theorem splitRE2Flags_cases {flags : Str} (h : splitRE2Flags src = some (pattern, flags)) :
    (pattern = src ∧ flags = []) ∨ ∃ group, group ≠ [] ∧ re2FlagsToJS [] group = some flags ∧
      src = lit "(?" ++ (group ++ byte ')' :: pattern) := by
  rw [splitRE2Flags] at h
  cases hlead : leadingFlagGroup src with
  | none =>
    rw [hlead] at h
    simp only at h
    split at h
    · cases h
    · rw [some.injEq, Prod.mk.injEq] at h
      exact .inl ⟨h.1.symm, h.2.symm⟩
  | some e =>
    rw [hlead] at h
    simp only at h
    cases hjs : re2FlagsToJS [] e.1 with
    | none =>
      rw [hjs] at h
      cases h
    | some js =>
      rw [hjs] at h
      simp only at h
      split at h
      · cases h
      · obtain ⟨rfl, rfl⟩ := h
        obtain ⟨hsrc, hne⟩ := leadingFlagGroup_eq hlead
        exact .inr ⟨e.1, hne, hjs, hsrc⟩

theorem next_flagGroup {group js rest : Str} (hne : group ≠ []) (hjs : re2FlagsToJS [] group = some js) :
    re2.next [{}] (lit "(?" ++ (group ++ byte ')' :: rest)) = some ([], [flagsOf js], rest) := by
  have hnext (s : Str) : re2.next [{}] (lit "(?" ++ s) = re2Group [{}] s := rfl
  rw [hnext]
  obtain ⟨f, flags, rfl⟩ := exists_cons_of_ne_nil hne
  have hf : (lit "ims").elem f = true := by
    rw [re2FlagsToJS] at hjs
    split at hjs
    · next hf => exact hf
    · cases hjs
  have hhead {l : UInt8} (hl : (lit "ims").elem l = false) (t : Str) :
      hasPrefix (f :: flags ++ byte ')' :: rest) (l :: t) = false := by
    have hfl := ne_of_bool (p := (lit "ims").elem) hl hf
    rw [hasPrefix, cons_append, isPrefixOf_cons_cons, beq_eq_false_iff_ne.mpr hfl, Bool.false_and]
  have hP : hasPrefix (f :: flags ++ byte ')' :: rest) (lit "P<") = false :=
    hhead (l := byte 'P') (by decide) [byte '<']
  have hangle : hasPrefix (f :: flags ++ byte ')' :: rest) (lit "<") = false :=
    hhead (l := byte '<') (by decide) []
  rw [re2Group, hP, hangle]
  exact re2FlagGroup_of_js false hjs

theorem re2_compile_of_split (h : splitRE2Flags src = some (pattern, flags)) {r : Re}
    (hr : re2.compile (flagsOf flags) pattern = some r) : re2.compile {} src = some r := by
  rcases splitRE2Flags_cases h with ⟨rfl, rfl⟩ | ⟨group, hne, hjs, rfl⟩
  · exact hr
  rw [compile, bind_eq_some_iff] at hr ⊢
  obtain ⟨toks, htoks, hparse⟩ := hr
  refine ⟨toks, ?_, hparse⟩
  have hlen : (lit "(?" ++ (group ++ byte ')' :: pattern)).length =
      (1 + group.length + pattern.length + 1) + 1 := by
    have htwo : (lit "(?").length = 2 := rfl
    rw [length_append, length_append, length_cons]
    omega
  rw [hlen]
  have hlex (n : Nat) : re2.lex (n + 1) [{}] (lit "(?" ++ (group ++ byte ')' :: pattern)) =
      re2.lex n [flagsOf flags] pattern := by
    have hcons (s : Str) : re2.lex (n + 1) [{}] (lit "(?" ++ s) =
        (re2.next [{}] (lit "(?" ++ s)).bind fun r => (re2.lex n r.2.1 r.2.2).map (r.1 ++ ·) := by
      rw [Dialect.lex]
      · cases re2.next [{}] _ <;> rfl
      · intro h
        cases h
    rw [hcons, next_flagGroup hne hjs]
    exact Option.map_id'
  rw [hlex]
  exact re2.lex_mono (by omega) htoks

end Cadish.Edge
