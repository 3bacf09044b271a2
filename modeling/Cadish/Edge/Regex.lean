import Cadish.Geo.Netip
import Cadish.Lib.Regex
import Cadish.Pipeline.Duration

/-!
# Regexes at the edge

A regex of a site is an RE2 pattern, and the worker builds a `RegExp` from it, with the flags that
`splitRE2Flags` lifts off its front. The dialects differ in escapes, dots, classes and anchors. A
pattern is `Portable` where both read every item alike: `.` under the flag `s` only, an anchor
without `m`. Unicode classes and what only `RegExp` has are left out.
-/

namespace Cadish.Edge

open Regex
open Str (byte hasPrefix)

/-! ## Bytes -/

def isAlnum (b : UInt8) : Bool :=
  isDigit b || (0x41 ≤ b && b ≤ 0x5a) || (0x61 ≤ b && b ≤ 0x7a)

def isWord (b : UInt8) : Bool := isAlnum b || b == byte '_'

variable (fl : Flags) (src s : Str) (c : UInt8) (pattern flags : Str)

/-- The sets of the escapes that both dialects have, and whether the escape asks for the others. -/
def sharedClass : Option ByteSet :=
  if c = byte 'd' then some isDigit
  else if c = byte 'D' then some fun b => !isDigit b
  else if c = byte 'w' then some isWord
  else if c = byte 'W' then some fun b => !isWord b
  else none

/-- The control characters that have a letter in both dialects. -/
def controlEscape : Option Nat :=
  [(byte 't', 9), (byte 'n', 10), (byte 'v', 11), (byte 'f', 12),
    (byte 'r', 13)].lookup c

def hexPair : Str → Option (Nat × Str)
  | x :: y :: s =>
    match hexVal x, hexVal y with
    | some hi, some lo => some (hi * 16 + lo, s)
    | _, _ => none
  | _ => none

/-- At most `n` octal digits in front, and their value after `v`. -/
def octalDigits : Nat → Nat → Str → Nat × Str
  | n + 1, v, b :: s =>
    if byte '0' ≤ b ∧ b ≤ byte '7' then octalDigits n (v * 8 + (b - byte '0').toNat) s
    else (v, b :: s)
  | _, v, s => (v, s)

/-- `\b` and `\B`. -/
def wordBoundary (negate : Bool) (before after : Option UInt8) : Bool :=
  (before.any isWord != after.any isWord) != negate

def digits : Str × Str := (s.takeWhile isDigit, s.dropWhile isDigit)

/-- The numbers in braces: the first, the second behind a comma (empty where it is open), and what
follows the closing brace. -/
def braceParts : Option (Str × Option Str × Str) :=
  let (lo, s) := digits s
  if lo = [] then none
  else
    match s with
    | b :: s =>
      if b = byte '}' then some (lo, none, s)
      else if b = byte ',' then
        let (hi, s) := digits s
        if s.head? = some (byte '}') then some (lo, some hi, s.tail) else none
      else none
    | [] => none

def braceBounds (lo : Str) (hi : Option Str) : Nat × Option Nat :=
  (digitsVal 10 lo,
    match hi with
    | none => some (digitsVal 10 lo)
    | some [] => none
    | some hi => some (digitsVal 10 hi))

def leadingZero : Bool := s.length ≥ 2 && s.head? == some (byte '0')

def groupName : Option (Str × Str) :=
  let name := s.takeWhile isWord
  let rest := s.dropWhile isWord
  if name ≠ [] ∧ rest.head? = some (byte '>') then some (name, rest.tail) else none

/-! ## RE2 -/

/-- `\x{…}`: hexadecimal digits up to the closing brace. -/
def re2HexBraces : Option (Nat × Str) :=
  let ds := s.takeWhile fun b => (hexVal b).isSome
  let rest := s.dropWhile fun b => (hexVal b).isSome
  if ds ≠ [] ∧ rest.head? = some (byte '}') ∧ digitsVal 16 ds ≤ 0x10ffff then
    some (digitsVal 16 ds, rest.tail)
  else none

def re2Char : Str → Option (Nat × Str)
  | [] => none
  | c :: s =>
    if byte '0' ≤ c ∧ c ≤ byte '7' then
      -- one digit other than zero is a back-reference, and RE2 has none
      if c ≠ byte '0' ∧ ¬s.head?.any (fun b => byte '0' ≤ b && b ≤ byte '7') then none
      else some (octalDigits 2 (c - byte '0').toNat s)
    else if c = byte 'x' then
      if s.head? = some (byte '{') then re2HexBraces s.tail else hexPair s
    else if c = byte 'a' then some (7, s)
    else
      match controlEscape c with
      | some code => some (code, s)
      | none => if c < 0x80 ∧ isAlnum c = false then some (c.toNat, s) else none

/-- The sets of the Perl escapes. -/
def re2Class : Option ByteSet :=
  let isSpace : ByteSet := fun b => b == 9 || b == 10 || b == 12 || b == 13 || b == 32
  if c = byte 's' then some isSpace
  else if c = byte 'S' then some fun b => !isSpace b
  else sharedClass c

/-- The text of `\Q…\E`, and what follows. -/
def re2Quoted : Str → Str × Str
  | [] => ([], [])
  | [b] => ([b], [])
  | b :: c :: s =>
    if b = byte '\\' ∧ c = byte 'E' then ([], s)
    else
      let (quoted, rest) := re2Quoted (c :: s)
      (b :: quoted, rest)

/-- What a backslash begins. -/
def re2Escape : Str → Option (List Token × Str)
  | [] => none
  | c :: s =>
    if c = byte 'A' then some ([.look fun before _ => before.isNone], s)
    else if c = byte 'z' then some ([.look fun _ after => after.isNone], s)
    else if c = byte 'b' then some ([.look (wordBoundary false)], s)
    else if c = byte 'B' then some ([.look (wordBoundary true)], s)
    else if c = byte 'Q' then
      let (quoted, rest) := re2Quoted s
      some (quoted.map fun b => single fl b.toNat, rest)
    else
      match re2Class c with
      | some set => some ([.atom set], s)
      | none => (re2Char (c :: s)).map fun e => ([single fl e.1], e.2)

/-- The sets that `[:name:]` stands for. -/
def posixGroups : List (Str × ByteSet) :=
  let lower : ByteSet := fun b => 0x61 ≤ b && b ≤ 0x7a
  let upper : ByteSet := fun b => 0x41 ≤ b && b ≤ 0x5a
  let graph : ByteSet := fun b => 0x21 ≤ b && b ≤ 0x7e
  [(lit "alnum", isAlnum), (lit "alpha", fun b => lower b || upper b), (lit "ascii", fun b => b < 0x80),
    (lit "blank", fun b => b == 9 || b == 32), (lit "cntrl", fun b => b < 0x20 || b == 0x7f),
    (lit "digit", isDigit), (lit "graph", graph), (lit "lower", lower),
    (lit "print", fun b => 0x20 ≤ b && b ≤ 0x7e), (lit "punct", fun b => graph b && !isAlnum b),
    (lit "space", fun b => b == 32 || (9 ≤ b && b ≤ 13)), (lit "upper", upper), (lit "word", isWord),
    (lit "xdigit", fun b => (hexVal b).isSome)]

/-- The text in front of `:]`, and what follows. -/
def posixEnd : Str → Option (Str × Str)
  | b :: c :: s =>
    if b = byte ':' ∧ c = byte ']' then some ([], s)
    else (posixEnd (c :: s)).map fun e => (b :: e.1, e.2)
  | _ => none

/-- `parseNamedClass`: a set by name, and its complement with a caret in front of the name. -/
def re2ClassSet : Str → Option (Option (ByteSet × Str))
  | b :: c :: s =>
    if b = byte '[' ∧ c = byte ':' then
      match posixEnd s with
      | none => none
      | some (name, rest) =>
        if name.head? = some (byte '^') then
          some ((posixGroups.lookup name.tail).map fun set => (fun b => !set b, rest))
        else some ((posixGroups.lookup name).map fun set => (set, rest))
    else none
  | _ => none

structure FlagGroup where
  flags : Flags
  negative : Bool := false
  sawFlag : Bool := false

def FlagGroup.put (g : FlagGroup) (c : UInt8) : Option FlagGroup :=
  let on := !g.negative
  if c = byte 'i' then some { g with flags := { g.flags with i := on }, sawFlag := true }
  else if c = byte 'm' then some { g with flags := { g.flags with m := on }, sawFlag := true }
  else if c = byte 's' then some { g with flags := { g.flags with s := on }, sawFlag := true }
  else if c = byte 'U' then some { g with sawFlag := true }
  else none

/-- `parsePerlFlags` behind the names of groups: flags up to a colon or a closing parenthesis. -/
def re2FlagGroup (fs : List Flags) : FlagGroup → Str → Option (List Token × List Flags × Str)
  | _, [] => none
  | g, c :: s =>
    if c = byte '-' then
      if g.negative then none else re2FlagGroup fs { g with negative := true, sawFlag := false } s
    else if c = byte ':' ∨ c = byte ')' then
      if g.negative = true ∧ g.sawFlag = false then none
      else if c = byte ':' then some ([.opens], g.flags :: fs, s)
      else some ([], g.flags :: fs.tail, s)
    else
      match g.put c with
      | some g => re2FlagGroup fs g s
      | none => none

def re2Group (fs : List Flags) (s : Str) : Option (List Token × List Flags × Str) :=
  if hasPrefix s (lit "P<") then
    (groupName (s.drop 2)).map fun e => ([.opens], fs.headD {} :: fs, e.2)
  else if hasPrefix s (lit "<") then
    (groupName (s.drop 1)).map fun e => ([.opens], fs.headD {} :: fs, e.2)
  else re2FlagGroup fs { flags := fs.headD {} } s

/-- `repeat`: a number with a leading zero is none, and one above 1000 is an error. -/
def re2Braces : Braces :=
  match braceParts s with
  | none => .literal
  | some (lo, hi, rest) =>
    let (least, most) := braceBounds lo hi
    if leadingZero lo || hi.any leadingZero then .literal
    else if least > 1000 ∨ most.any (fun n => n > 1000 || least > n) then .refused
    else .quantifier least most rest

def re2 : Dialect where
  strict := false
  escape := re2Escape
  classEscape
    | [] => none
    | c :: s =>
      match re2Class c with
      | some set => some (.set set, s)
      | none => (re2Char (c :: s)).map fun e => (.char e.1, e.2)
  classSet := re2ClassSet
  leadingBracket := true
  looseRanges := false
  dot fl := fun b => fl.s || b != 10
  lineStart fl before _ := before.isNone || (fl.m && before == some 10)
  lineEnd fl _ after := after.isNone || (fl.m && after == some 10)
  group := re2Group
  braces := re2Braces

/-! ## RegExp -/

def hexQuad : Option (Nat × Str) :=
  (hexPair s).bind fun hi => (hexPair hi.2).map fun lo => (hi.1 * 256 + lo.1, lo.2)

/-- The character behind a backslash: an escape without a meaning stands for itself. -/
def ecmaChar : Str → Option (Nat × Str)
  | [] => none
  | c :: s =>
    match controlEscape c with
    | some code => some (code, s)
    | none =>
      if c = byte 'c' then
        match s with
        | l :: s =>
          if isAlnum l && !isDigit l then some (l.toNat % 32, s) else some (0x5c, c :: l :: s)
        | [] => some (0x5c, [c])
      else if c = byte 'x' then some ((hexPair s).getD (c.toNat, s))
      else if c = byte 'u' then some ((hexQuad s).getD (c.toNat, s))
      else if byte '0' ≤ c ∧ c ≤ byte '3' then some (octalDigits 2 (c - byte '0').toNat s)
      else if byte '4' ≤ c ∧ c ≤ byte '7' then some (octalDigits 1 (c - byte '0').toNat s)
      else some (c.toNat, s)

def ecmaClass : Option ByteSet :=
  let isSpace : ByteSet := fun b => b == 32 || (9 ≤ b && b ≤ 13)
  if c = byte 's' then some isSpace
  else if c = byte 'S' then some fun b => !isSpace b
  else sharedClass c

def ecmaEscape : Str → Option (List Token × Str)
  | [] => none
  | c :: s =>
    if c = byte 'b' then some ([.look (wordBoundary false)], s)
    else if c = byte 'B' then some ([.look (wordBoundary true)], s)
    else
      match ecmaClass c with
      | some set => some ([.atom set], s)
      | none => (ecmaChar (c :: s)).map fun e => ([single fl e.1], e.2)

def ecmaGroup (fs : List Flags) (s : Str) : Option (List Token × List Flags × Str) :=
  if s.head? = some (byte ':') then some ([.opens], fs.headD {} :: fs, s.tail)
  else if s.head? = some (byte '<') then
    match groupName s.tail with
    | some (name, rest) =>
      if name.head?.any isDigit then none else some ([.opens], fs.headD {} :: fs, rest)
    | none => none
  else none

def ecmaBraces : Braces :=
  match braceParts s with
  | none => .literal
  | some (lo, hi, rest) =>
    let (least, most) := braceBounds lo hi
    if most.any fun n => least > n then .refused else .quantifier least most rest

/-- `new RegExp`, without the flag `u`. -/
def ecma : Dialect where
  strict := true
  escape := ecmaEscape
  classEscape
    | [] => none
    | c :: s =>
      if c = byte 'b' then some (.char 8, s)
      else if c = byte 'c' ∧ s.head?.any isWord then
        some (.char ((s.headD 0).toNat % 32), s.tail)
      else
        match ecmaClass c with
        | some set => some (.set set, s)
        | none => (ecmaChar (c :: s)).map fun e => (.char e.1, e.2)
  classSet _ := none
  leadingBracket := false
  looseRanges := true
  dot fl := fun b => fl.s || (b != 10 && b != 13)
  lineStart fl before _ := before.isNone || (fl.m && (before == some 10 || before == some 13))
  lineEnd fl _ after := after.isNone || (fl.m && (after == some 10 || after == some 13))
  group := ecmaGroup
  braces := ecmaBraces

/-! ## The projection -/

/-- `isLeadingFlagGroup`, behind `(?`: the flags, and what follows the group. -/
def flagGroup : Str → Option (Str × Str)
  | [] => none
  | b :: s =>
    if b = byte ')' then some ([], s)
    else if (lit "imsU-").elem b then (flagGroup s).map fun e => (b :: e.1, e.2)
    else none

def leadingFlagGroup : Option (Str × Str) :=
  if hasPrefix src (lit "(?") then
    match flagGroup (src.drop 2) with
    | some (flags, rest) => if flags = [] then none else some (flags, rest)
    | none => none
  else none

def re2FlagsToJS : Str → Str → Option Str
  | seen, [] => some seen
  | seen, f :: flags =>
    if (lit "ims").elem f then re2FlagsToJS (if seen.elem f then seen else seen ++ [f]) flags
    else none

/-- `hasInlineFlagGroup`: in a class, and behind an odd number of backslashes. -/
def hasInlineFlagGroup : Bool → Bool → Str → Bool
  | inClass, escaped, b :: c :: s =>
    let escaped' := b == byte '\\' && !escaped
    if !escaped && !inClass && b == byte '[' then hasInlineFlagGroup true escaped' (c :: s)
    else if !escaped && inClass && b == byte ']' then hasInlineFlagGroup false escaped' (c :: s)
    else if inClass || b != byte '(' || c != byte '?' || escaped then
      hasInlineFlagGroup inClass escaped' (c :: s)
    else if s.head?.any (lit ":=!<").elem then hasInlineFlagGroup inClass escaped' (c :: s)
    else true
  | _, _, _ => false

def splitRE2Flags : Option (Str × Str) :=
  match leadingFlagGroup src with
  | none => if hasInlineFlagGroup false false src then none else some (src, [])
  | some (flags, rest) =>
    match re2FlagsToJS [] flags with
    | none => none
    | some js => if hasInlineFlagGroup false false rest then none else some (rest, js)

def flagsOf : Flags where
  i := flags.elem (byte 'i')
  m := flags.elem (byte 'm')
  s := flags.elem (byte 's')

def regExp : Option Re := ecma.compile (flagsOf flags) pattern

/-- **The worker's regex is refused, or it accepts the ASCII texts that the server's accepts.** -/
def ProjectedSoundly : Prop :=
  ∀ r, re2.compile {} src = some r → regExp pattern flags = none ∨
    ∃ r', regExp pattern flags = some r' ∧ ∀ s : Str, (∀ b ∈ s, b < 0x80) → search r' s = search r s

/-! ## Portable patterns -/

/-- The letters whose escapes are read alike, in a class too. -/
def portableLetters : Str := lit "dDwWtnvfr"

/-- What follows an escape that both dialects read alike. -/
def portableEscape : Str → Option Str
  | [] => none
  | c :: s =>
    if portableLetters.elem c || (c < 0x80 && !isAlnum c) then some s
    else if c = byte 'x' then (hexPair s).map (·.2)
    else none

/-- Whether an escape stands for several characters. -/
def isSetEscape : Bool := (s.headD 0 == byte '\\') && (lit "dDwW").elem (s.tail.headD 0)

/-- What follows an atom of a class that both dialects read alike. -/
def portableAtom : Str → Option Str
  | [] => none
  | b :: s => if b = byte '\\' then portableEscape s else some s

/-- What follows an item of a class that both dialects read alike: no bracketed set, and no range
with an escape for several characters on either side. -/
def portableClassItem : Option Str :=
  if hasPrefix s (lit "[:") then none
  else
    match portableAtom s with
    | none => none
    | some rest =>
      match Dialect.rangeRest rest with
      | none => some rest
      | some hi => if isSetEscape s || isSetEscape hi then none else portableAtom hi

/-- What follows the items of a class that both dialects read alike. -/
def portableClass : Nat → Bool → Str → Option Str
  | 0, _, _ => none
  | n + 1, first, s =>
    if s.head? = some (byte ']') then if first then none else some s.tail
    else
      match portableClassItem s with
      | none => none
      | some rest => portableClass n false rest

/-- Braces that both dialects read alike: no number has a zero in front or is above 1000. -/
def portableBraces : Bool :=
  match braceParts s with
  | none => true
  | some (lo, hi, _) =>
    !(leadingZero lo || hi.any leadingZero) && (braceBounds lo hi).1 ≤ 1000 &&
      !(braceBounds lo hi).2.any (· > 1000)

/-- What follows the next item of a pattern, if both dialects read it alike. -/
def portableItem : Str → Option Str
  | [] => none
  | b :: s =>
    if b = byte '\\' then
      if (lit "bB").elem (s.headD 0) then some s.tail else portableEscape s
    else if b = byte '[' then
      let body := if s.head? = some (byte '^') then s.tail else s
      portableClass (body.length + 1) true body
    else if b = byte '.' then if fl.s then some s else none
    else if b = byte '^' ∨ b = byte '$' then if fl.m then none else some s
    else if b = byte '(' then
      if s.head? = some (byte '?') then
        if s.tail.head? = some (byte ':') then some s.tail.tail else none
      else some s
    else if b = byte '*' ∨ b = byte '+' ∨ b = byte '?' then some (Dialect.dropLazy s)
    else if b = byte '{' then
      if portableBraces s then
        match ecmaBraces s with
        | .quantifier _ _ rest => some (Dialect.dropLazy rest)
        | .literal => some s
        | .refused => none
      else none
    else some s

def portable (fl : Flags) : Nat → Str → Bool
  | _, [] => true
  | 0, _ => false
  | n + 1, s =>
    match portableItem fl s with
    | none => false
    | some rest => portable fl n rest

/-- **A pattern that both dialects read alike**, item by item. -/
def Portable : Prop := portable fl pattern.length pattern = true

instance (fl : Flags) (pattern : Str) : Decidable (Portable fl pattern) :=
  inferInstanceAs (Decidable (_ = true))

end Cadish.Edge
