import Mathlib.Data.List.Dedup

/-!
# Regular expressions over bytes

The *lexer* of a pattern is the dialect's, the *parser* is the same for all; a `strict` dialect
refuses to repeat an assertion. A match is found anywhere in the text: `ends` lists the positions at
which one may end. **A dialect that reads the tokens which another one reads accepts the same
texts** (`Reads.compile`).
-/

namespace Cadish.Regex

abbrev ByteSet := UInt8 → Bool

/-! ## Syntax -/

inductive Token where
  | atom (set : ByteSet)
  | look (holds : Option UInt8 → Option UInt8 → Bool)
  | opens
  | closes
  | bar
  | rep (least : Nat) (most : Option Nat)

inductive Re where
  | eps
  | atom (set : ByteSet)
  | look (holds : Option UInt8 → Option UInt8 → Bool)
  | seq (r r' : Re)
  | alt (r r' : Re)
  | rep (r : Re) (least : Nat) (most : Option Nat)

inductive Item where
  | plain
  | look
  | repeated
deriving DecidableEq

/-- A group on its way: the alternatives so far, and the items of the current one, backwards. -/
structure Frame where
  alts : List Re := []
  items : List (Re × Item) := []

variable (fl : Flags) (strict : Bool) (f : Frame) (r : Re)

def Frame.concat : Re := f.items.foldl (fun r item => .seq item.1 r) .eps

def Frame.close : Re := f.alts.foldl (fun r alt => .alt alt r) f.concat

def Frame.push (item : Item) : Frame := { f with items := (r, item) :: f.items }

/-- The last item, repeated. Nothing is repeated twice, and a strict dialect repeats no assertion. -/
def Frame.repeatLast (least : Nat) (most : Option Nat) (f : Frame) : Option Frame :=
  match f.items with
  | (r, item) :: items =>
    if item = .repeated ∨ (item = .look ∧ strict) then none
    else some { f with items := (.rep r least most, .repeated) :: items }
  | [] => none

def parseToken : List Frame → Token → Option (List Frame)
  | [], _ => none
  | f :: fs, .atom set => some (f.push (.atom set) .plain :: fs)
  | f :: fs, .look holds => some (f.push (.look holds) .look :: fs)
  | f :: fs, .opens => some ({} :: f :: fs)
  | f :: fs, .closes =>
    match fs with
    | [] => none
    | g :: gs => some (g.push f.close .plain :: gs)
  | f :: fs, .bar => some ({ alts := f.concat :: f.alts } :: fs)
  | f :: fs, .rep least most => (f.repeatLast strict least most).map (· :: fs)

/-- The expression of a token list, if its groups are balanced and its repetitions have something to
repeat. -/
def parse (toks : List Token) : Option Re :=
  match toks.foldlM (parseToken strict) [{}] with
  | some [f] => some f.close
  | _ => none

/-! ## Matching -/

def rounds (step : Nat → List Nat) : Nat → List Nat → List Nat
  | 0, is => is
  | n + 1, is => rounds step n (is.flatMap step).dedup

/-- The positions at which a match that begins at `i` may end. More rounds than there are bytes lead
to no new position. -/
def ends (s : List UInt8) : Re → Nat → List Nat
  | .eps, i => [i]
  | .atom set, i => if s[i]?.any set then [i + 1] else []
  | .look holds, i => if holds (if i = 0 then none else s[i - 1]?) s[i]? then [i] else []
  | .seq r r', i => (ends s r i).flatMap (ends s r')
  | .alt r r', i => ends s r i ++ ends s r' i
  | .rep r least most, i =>
    (List.range ((most.getD (least + s.length)) - least + 1)).flatMap fun k =>
      rounds (ends s r) (least + k) [i]

def search (s : List UInt8) : Bool :=
  (List.range (s.length + 1)).any fun i => !(ends s r i).isEmpty

/-! ## Dialects -/

structure Flags where
  i : Bool := false
  m : Bool := false
  s : Bool := false
deriving DecidableEq

inductive Braces where
  | quantifier (least : Nat) (most : Option Nat) (rest : List UInt8)
  | literal
  | refused

inductive ClassAtom where
  | char (code : Nat)
  | set (set : ByteSet)

structure Dialect where
  strict : Bool
  escape : Flags → List UInt8 → Option (List Token × List UInt8)
  classEscape : List UInt8 → Option (ClassAtom × List UInt8)
  classSet : List UInt8 → Option (Option (ByteSet × List UInt8))
  /-- a closing bracket stands for itself as the first byte of a class -/
  leadingBracket : Bool
  /-- a hyphen behind or in front of a set is one of the characters -/
  looseRanges : Bool
  dot : Flags → ByteSet
  lineStart : Flags → Option UInt8 → Option UInt8 → Bool
  lineEnd : Flags → Option UInt8 → Option UInt8 → Bool
  group : List Flags → List UInt8 → Option (List Token × List Flags × List UInt8)
  braces : List UInt8 → Braces

def byteOf (c : Char) : UInt8 := c.toUInt8

def swapCase (b : UInt8) : UInt8 :=
  if 0x41 ≤ b ∧ b ≤ 0x5a then b + 0x20 else if 0x61 ≤ b ∧ b ≤ 0x7a then b - 0x20 else b

def foldCase (set : ByteSet) : ByteSet :=
  if fl.i then fun b => set b || set (swapCase b) else set

def single (code : Nat) : Token := .atom (foldCase fl fun b => b.toNat == code)

namespace Dialect

variable (D : Dialect)

def classAtom : List UInt8 → Option (ClassAtom × List UInt8)
  | [] => none
  | b :: s => if b = byteOf '\\' then D.classEscape s else some (.char b.toNat, s)

def atomSet : ClassAtom → ByteSet
  | .char code => fun b => b.toNat == code
  | .set set => set

/-- What follows the hyphen of a range, if `s` begins with one that is not the last of its class. -/
def rangeRest : List UInt8 → Option (List UInt8)
  | b :: c :: s => if b = byteOf '-' ∧ c ≠ byteOf ']' then some (c :: s) else none
  | _ => none

def classItem (s : List UInt8) : Option (List ByteSet × List UInt8) :=
  match D.classSet s with
  | some named => named.map fun e => ([e.1], e.2)
  | none =>
    match D.classAtom s with
    | none => none
    | some (lo, rest) =>
      match rangeRest rest with
      | none => some ([atomSet lo], rest)
      | some hiText =>
        match lo with
        | .set set =>
          if D.looseRanges then
            (D.classAtom hiText).map fun hi =>
              ([set, fun b => b == byteOf '-', atomSet hi.1], hi.2)
          else some ([set], rest)
        | .char lo =>
          match D.classAtom hiText with
          | some (.char hi, rest) =>
            if lo ≤ hi then some ([fun b => lo ≤ b.toNat && b.toNat ≤ hi], rest) else none
          | some (.set set, rest) =>
            if D.looseRanges then some ([fun b => b.toNat == lo, fun b => b == byteOf '-', set], rest)
            else none
          | none => none

def classItems : Nat → Bool → List UInt8 → Option (List ByteSet × List UInt8)
  | 0, _, _ => none
  | n + 1, first, s =>
    if s.head? = some (byteOf ']') ∧ ¬(first = true ∧ D.leadingBracket = true) then some ([], s.tail)
    else
      match D.classItem s with
      | none => none
      | some (sets, rest) => (classItems n false rest).map fun more => (sets ++ more.1, more.2)

def charClass (fl : Flags) (s : List UInt8) : Option (Token × List UInt8) :=
  let negate := s.head? = some (byteOf '^')
  let body := if negate then s.tail else s
  (D.classItems (body.length + 1) true body).map fun items =>
    let set := foldCase fl fun b => items.1.any (· b)
    (.atom fun b => if negate then !set b else set b, items.2)

def dropLazy (s : List UInt8) : List UInt8 := if s.head? = some (byteOf '?') then s.tail else s

def next (fs : List Flags) : List UInt8 → Option (List Token × List Flags × List UInt8)
  | [] => none
  | b :: s =>
    let fl := fs.headD {}
    if b = byteOf '\\' then (D.escape fl s).map fun e => (e.1, fs, e.2)
    else if b = byteOf '[' then (D.charClass fl s).map fun e => ([e.1], fs, e.2)
    else if b = byteOf '.' then some ([.atom (D.dot fl)], fs, s)
    else if b = byteOf '^' then some ([.look (D.lineStart fl)], fs, s)
    else if b = byteOf '$' then some ([.look (D.lineEnd fl)], fs, s)
    else if b = byteOf '(' then
      if s.head? = some (byteOf '?') then D.group fs s.tail else some ([.opens], fl :: fs, s)
    else if b = byteOf ')' then some ([.closes], if fs.length ≤ 1 then fs else fs.tail, s)
    else if b = byteOf '|' then some ([.bar], fs, s)
    else if b = byteOf '*' then some ([.rep 0 none], fs, dropLazy s)
    else if b = byteOf '+' then some ([.rep 1 none], fs, dropLazy s)
    else if b = byteOf '?' then some ([.rep 0 (some 1)], fs, dropLazy s)
    else if b = byteOf '{' then
      match D.braces s with
      | .quantifier least most rest => some ([.rep least most], fs, dropLazy rest)
      | .literal => some ([single fl b.toNat], fs, s)
      | .refused => none
    else some ([single fl b.toNat], fs, s)

def lex : Nat → List Flags → List UInt8 → Option (List Token)
  | _, _, [] => some []
  | 0, _, _ => none
  | n + 1, fs, s =>
    match D.next fs s with
    | none => none
    | some (toks, fs', rest) => (lex n fs' rest).map (toks ++ ·)

def compile (fl : Flags) (pattern : List UInt8) : Option Re :=
  (D.lex pattern.length [fl] pattern).bind (parse D.strict)

end Dialect

/-! ## Dialects that read alike -/

variable {fl : Flags} {fs : List Flags} {toks : List Token}

def Steady (fl : Flags) (fs : List Flags) : Prop := fs ≠ [] ∧ ∀ f ∈ fs, f = fl

theorem Steady.headD (h : Steady fl fs) : fs.headD {} = fl := by
  obtain ⟨hne, hall⟩ := h
  cases fs with
  | nil => exact absurd rfl hne
  | cons f fs => exact hall f List.mem_cons_self

theorem Steady.cons (h : Steady fl fs) : Steady fl (fl :: fs) :=
  ⟨List.cons_ne_nil _ _, by
    intro f hf
    rcases List.mem_cons.mp hf with rfl | hf
    · rfl
    · exact h.2 f hf⟩

theorem Steady.pop (h : Steady fl fs) : Steady fl (if fs.length ≤ 1 then fs else fs.tail) := by
  split
  · exact h
  next hlen =>
  refine ⟨?_, fun f hf => h.2 f (List.mem_of_mem_tail hf)⟩
  intro hnil
  have := congrArg List.length hnil
  rw [List.length_tail, List.length_nil] at this
  omega

/-- The second dialect refuses `s`, or both read the same next tokens in it and leave `rest`. -/
def ReadsItem (D D' : Dialect) (fl : Flags) (s rest : List UInt8) : Prop :=
  ∀ fs, Steady fl fs → D'.next fs s = none ∨ ∃ toks fs', D.next fs s = some (toks, fs', rest) ∧
    D'.next fs s = some (toks, fs', rest) ∧ Steady fl fs'

inductive Reads (D D' : Dialect) (fl : Flags) : List UInt8 → Prop
  | nil : Reads D D' fl []
  | item {s rest : List UInt8} : ReadsItem D D' fl s rest → Reads D D' fl rest → Reads D D' fl s

theorem Reads.lex {D D' : Dialect} {s : List UInt8} (h : Reads D D' fl s) {n : Nat} (hfs : Steady fl fs)
    (htoks : D'.lex n fs s = some toks) : D.lex n fs s = some toks := by
  induction h generalizing n fs toks with
  | nil => cases n <;> exact htoks
  | @item s rest hitem _ ih =>
    cases s with
    | nil => cases n <;> exact htoks
    | cons b s =>
      cases n with
      | zero => exact htoks
      | succ n =>
        rcases hitem fs hfs with hnone | ⟨front, fs', hD, hD', hfs'⟩
        · simp only [Dialect.lex, hnone] at htoks
          cases htoks
        · simp only [Dialect.lex, hD', Option.map_eq_some_iff] at htoks
          obtain ⟨more, hmore, rfl⟩ := htoks
          simp only [Dialect.lex, hD, ih hfs' hmore, Option.map_some]

theorem Dialect.lex_mono (D : Dialect) {n k : Nat} (hk : n ≤ k) {s : List UInt8}
    (h : D.lex n fs s = some toks) : D.lex k fs s = some toks := by
  induction n generalizing k fs s toks with
  | zero =>
    cases s with
    | nil => cases k <;> exact h
    | cons b s => cases h
  | succ n ih =>
    obtain ⟨k, rfl⟩ : ∃ k', k = k' + 1 := ⟨k - 1, by omega⟩
    cases s with
    | nil => exact h
    | cons b s =>
      cases hnext : D.next fs (b :: s) with
      | none =>
        simp only [lex, hnext] at h
        cases h
      | some e =>
        simp only [lex, hnext, Option.map_eq_some_iff] at h ⊢
        obtain ⟨more, hmore, rfl⟩ := h
        exact ⟨more, ih (by omega) hmore, rfl⟩

theorem parseToken_of_strict {fs fs' : List Frame} {t : Token} (strict : Bool)
    (h : parseToken true fs t = some fs') : parseToken strict fs t = some fs' := by
  cases fs with
  | nil => cases h
  | cons f fs =>
    cases t with
    | rep least most =>
      rw [parseToken, Option.map_eq_some_iff] at h ⊢
      obtain ⟨g, hg, hfs⟩ := h
      refine ⟨g, ?_, hfs⟩
      rw [Frame.repeatLast] at hg ⊢
      cases hitems : f.items with
      | nil =>
        rw [hitems] at hg
        cases hg
      | cons e items =>
        rw [hitems] at hg
        simp only at hg ⊢
        split at hg
        · cases hg
        next hitem =>
        rw [if_neg ?_]
        · exact hg
        · rintro (hrep | ⟨hlook, -⟩)
          · exact hitem (.inl hrep)
          · exact hitem (.inr ⟨hlook, trivial⟩)
    | atom set | look holds | opens | closes | bar => exact h

theorem foldlM_of_strict {fs fs' : List Frame} (strict : Bool)
    (h : toks.foldlM (parseToken true) fs = some fs') :
    toks.foldlM (parseToken strict) fs = some fs' := by
  induction toks generalizing fs with
  | nil => exact h
  | cons t toks ih =>
    rw [List.foldlM_cons, Option.bind_eq_bind, Option.bind_eq_some_iff] at h ⊢
    obtain ⟨mid, hmid, hrest⟩ := h
    exact ⟨mid, parseToken_of_strict strict hmid, ih hrest⟩

theorem parse_of_strict {r : Re} (strict : Bool) (h : parse true toks = some r) :
    parse strict toks = some r := by
  rw [parse] at h ⊢
  cases hf : toks.foldlM (parseToken true) [{}] with
  | none =>
    rw [hf] at h
    cases h
  | some fs =>
    rw [hf] at h
    rw [foldlM_of_strict strict hf]
    exact h

theorem Reads.compile {D D' : Dialect} {pattern : List UInt8} (h : Reads D D' fl pattern)
    (hstrict : D'.strict = true) {r : Re} (hr : D'.compile fl pattern = some r) :
    D.compile fl pattern = some r := by
  have hsteady : Steady fl [fl] := ⟨List.cons_ne_nil _ _, fun f hf => List.mem_singleton.mp hf⟩
  rw [Dialect.compile, Option.bind_eq_some_iff] at hr ⊢
  obtain ⟨toks, htoks, hparse⟩ := hr
  rw [hstrict] at hparse
  exact ⟨toks, h.lex hsteady htoks, parse_of_strict _ hparse⟩

end Cadish.Regex
