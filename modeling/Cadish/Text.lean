import Mathlib.Data.List.Basic

/-!
# Byte strings

A string is a sequence of bytes that need not be valid UTF-8. The functions are those of `strings`
and `textproto` that the code uses, with the case mapping of ASCII.
-/

namespace Cadish

open List

abbrev Str := List UInt8

/-- What holds of the bytes of a string is decided byte by byte. -/
instance (s : Str) (p : UInt8 → Prop) [DecidablePred p] : Decidable (∀ b ∈ s, p b) :=
  List.decidableBAll p s

instance : LawfulBEq Str := inferInstance

/-- The bytes of a literal of the source. -/
def lit (s : String) : Str := s.toList.flatMap String.utf8EncodeChar

namespace Str

def byte (c : Char) : UInt8 := c.toUInt8

variable (b : UInt8) (s : Str)

def lowerByte : UInt8 := if 65 ≤ b ∧ b ≤ 90 then b + 32 else b

def upperByte : UInt8 := if 97 ≤ b ∧ b ≤ 122 then b - 32 else b

def toLower : Str := s.map lowerByte

def toUpper : Str := s.map upperByte

/-- The letter a string starts with under simple case folding, and how many more bytes it
takes: the Kelvin sign folds to `k`, and the long s to `s`. -/
def foldHead : Str → UInt8 × Nat
  | 0xe2 :: 0x84 :: 0xaa :: _ => (byte 'k', 2)
  | 0xc5 :: 0xbf :: _ => (byte 's', 1)
  | b :: _ => (lowerByte b, 0)
  | [] => (0, 0)

/-- Case folding onto ASCII, after the rest of the current character. -/
def foldBytes : Nat → Str → Str
  | _, [] => []
  | rest + 1, _ :: s => foldBytes rest s
  | 0, b :: s => (foldHead (b :: s)).1 :: foldBytes (foldHead (b :: s)).2 s

def equalFold (s lower : Str) : Bool := foldBytes 0 s == lower

/-! ## White space

`strings.TrimSpace` trims the white space of Unicode: six ASCII bytes, two characters of two
bytes, and the rest of three bytes. -/

def isSpace : Bool := b == 0x20 || (0x09 ≤ b && b ≤ 0x0d)

/-- A white-space character of two bytes: U+0085, U+00A0. -/
def isSpace2 (b₁ b₂ : UInt8) : Bool := b₁ == 0xc2 && (b₂ == 0x85 || b₂ == 0xa0)

/-- A white-space character of three bytes: U+1680, U+2000 to U+200A, U+2028, U+2029, U+202F,
U+205F, U+3000. -/
def isSpace3 (b₁ b₂ b₃ : UInt8) : Bool :=
  (b₁ == 0xe1 && b₂ == 0x9a && b₃ == 0x80) ||
  (b₁ == 0xe2 && b₂ == 0x80 && ((0x80 ≤ b₃ && b₃ ≤ 0x8a) || b₃ == 0xa8 || b₃ == 0xa9 ||
    b₃ == 0xaf)) ||
  (b₁ == 0xe2 && b₂ == 0x81 && b₃ == 0x9f) ||
  (b₁ == 0xe3 && b₂ == 0x80 && b₃ == 0x80)

/-- How many bytes of white space the string starts with: the length of its first character
if that is a space, and 0 if it is not. -/
def spaceLen : Str → Nat
  | [] => 0
  | [b₁] => if isSpace b₁ then 1 else 0
  | [b₁, b₂] => if isSpace b₁ then 1 else if isSpace2 b₁ b₂ then 2 else 0
  | b₁ :: b₂ :: b₃ :: _ =>
    if isSpace b₁ then 1 else if isSpace2 b₁ b₂ then 2 else if isSpace3 b₁ b₂ b₃ then 3 else 0

def spaceLenRev : Str → Nat
  | [] => 0
  | [b₁] => if isSpace b₁ then 1 else 0
  | [b₁, b₂] => if isSpace b₁ then 1 else if isSpace2 b₂ b₁ then 2 else 0
  | b₁ :: b₂ :: b₃ :: _ =>
    if isSpace b₁ then 1 else if isSpace2 b₂ b₁ then 2 else if isSpace3 b₃ b₂ b₁ then 3 else 0

/-- Drop characters while `len` counts one, after the rest of the current one. -/
def dropSpaces (len : Str → Nat) : Nat → Str → Str
  | _, [] => []
  | rest + 1, _ :: s => dropSpaces len rest s
  | 0, b :: s =>
    match len (b :: s) with
    | 0 => b :: s
    | rest + 1 => dropSpaces len rest s

def trimLeft : Str := dropSpaces spaceLen 0 s

def trimRight : Str := (dropSpaces spaceLenRev 0 s.reverse).reverse

def trimSpace : Str := trimRight (trimLeft s)

def trimString : Str :=
  let space : UInt8 → Bool := fun b => (lit " \t\n\r").elem b
  ((s.dropWhile space).reverse.dropWhile space).reverse

/-! ## Cutting and comparing -/

/-- Cut around the first occurrence of a byte. -/
def cut (sep : UInt8) : Str → Option (Str × Str)
  | [] => none
  | b :: s => if b = sep then some ([], s) else (cut sep s).map fun p => (b :: p.1, p.2)

theorem cut_eq_some {sep : UInt8} {s x y : Str} (h : cut sep s = some (x, y)) :
    s = x ++ sep :: y ∧ sep ∉ x := by
  induction s generalizing x with
  | nil => cases h
  | cons b s ih =>
    rw [cut] at h
    split at h
    case isTrue hb =>
      obtain ⟨rfl, rfl⟩ : [] = x ∧ s = y := by simpa using h
      exact ⟨by rw [hb]; rfl, not_mem_nil⟩
    case isFalse hb =>
      obtain ⟨⟨x', y'⟩, hc, he⟩ := Option.map_eq_some_iff.mp h
      obtain ⟨rfl, rfl⟩ : b :: x' = x ∧ y' = y := by simpa using he
      obtain ⟨rfl, hn⟩ := ih hc
      refine ⟨rfl, ?_⟩
      simp only [mem_cons, not_or]
      exact ⟨fun h => hb h.symm, hn⟩

theorem cut_eq_none {sep : UInt8} {s : Str} (h : cut sep s = none) : sep ∉ s := by
  induction s with
  | nil => exact not_mem_nil
  | cons b s ih =>
    rw [cut] at h
    split at h
    · cases h
    case isFalse hb =>
      have := ih (by simpa using h)
      simp only [mem_cons, not_or]
      exact ⟨fun h => hb h.symm, this⟩

theorem cut_append {sep : UInt8} {x : Str} (y : Str) (hx : sep ∉ x) :
    cut sep (x ++ sep :: y) = some (x, y) := by
  induction x with
  | nil => simp [cut]
  | cons b x ih =>
    rw [mem_cons, not_or] at hx
    rw [cons_append, cut, if_neg (Ne.symm hx.1), ih hx.2]
    rfl

def split (sep : UInt8) (s : Str) : List Str := s.splitOn sep

def join (sep : Str) (parts : List Str) : Str := sep.intercalate parts

theorem mem_join {sep : Str} {b : UInt8} {xs : List Str} :
    b ∈ join sep xs → b ∈ sep ∨ ∃ x ∈ xs, b ∈ x := by
  intro hb
  induction xs with
  | nil => cases hb
  | cons x xs ih =>
    cases xs with
    | nil => exact .inr ⟨x, by simp, by simpa [join] using hb⟩
    | cons y ys =>
      simp only [join, intercalate_cons_cons, mem_append] at hb ih
      rcases hb with (hb | hb) | hb
      · exact .inr ⟨x, by simp, hb⟩
      · exact .inl hb
      · rcases ih hb with h | ⟨z, hz, hbz⟩
        · exact .inl h
        · exact .inr ⟨z, mem_cons_of_mem x hz, hbz⟩

def hasPrefix (s pre : Str) : Bool := pre.isPrefixOf s

def hasSuffix (s suf : Str) : Bool := suf.isSuffixOf s

def contains : Str → Str → Bool
  | [], sub => sub.isEmpty
  | b :: s, sub => sub.isPrefixOf (b :: s) || contains s sub

def trimByte : Str :=
  ((s.dropWhile (· = b)).reverse.dropWhile (· = b)).reverse

/-- Strip one surrounding pair of double quotes. -/
def unquote : Str :=
  if 2 ≤ s.length ∧ s.head? = some (byte '"') ∧ s.getLast? = some (byte '"') then
    s.tail.dropLast
  else s

end Str

end Cadish
