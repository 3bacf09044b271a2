import Cadish.Pipeline.Cookies
import Cadish.Pipeline.Duration

/-!
# Range requests

A hit answers a `Range` header with a slice of the stored body, with 416 or with the whole body.
**What a valid range is assigned is served exactly if its numbers fit in 64 bits**
(`range_answers`): a number that does not is taken for a malformed header, and the whole body is
sent (`range_overflows`). A blank, a sign or a reversed range is let through.
-/

namespace Cadish

open List Str

inductive RangeResult where
  | ok (start length : Int)
  | invalid
  | unsatisfiable
deriving DecidableEq

/-- `parseSingleRange` behind the dash. -/
def resolveRange (startStr endStr : Str) (size : Int) : RangeResult :=
  if startStr = [] then
    match parseInt64 endStr with
    | none => .invalid
    | some n => if n ≤ 0 then .unsatisfiable else .ok (size - min n size) (min n size)
  else
    match parseInt64 startStr with
    | none => .invalid
    | some start =>
      if start < 0 then .invalid
      else if size ≤ start then .unsatisfiable
      else if endStr = [] then .ok start (size - 1 - start + 1)
      else
        match parseInt64 endStr with
        | none => .invalid
        | some last =>
          if last < start then .unsatisfiable else .ok start (min last (size - 1) - start + 1)

def parseSingleRange (header : Str) (size : Int) : RangeResult :=
  if size ≤ 0 then .unsatisfiable
  else if hasPrefix header (lit "bytes=") then
    let spec := trimSpace (header.drop 6)
    if spec = [] ∨ byte ',' ∈ spec then .invalid
    else
      match cut (byte '-') spec with
      | none => .invalid
      | some (startStr, endStr) => resolveRange (trimSpace startStr) (trimSpace endStr) size
  else .invalid

def formatInt (n : Int) : Str :=
  (if n < 0 then lit "-" else []) ++ (Nat.toDigits 10 n.natAbs).map byte

def contentRange (start length size : Int) : Str :=
  lit "bytes " ++ formatInt start ++ lit "-" ++ formatInt (start + length - 1) ++ lit "/" ++
    formatInt size

structure RangeReply where
  status : Nat
  contentRange : Str
  body : Str

/-- The `Range` part of `serveFromCache`; without a reply the whole body is sent. The range is
honoured if the status of the object is 200 and `If-Range` allows it. -/
def serveRange (header : Str) (honoured head : Bool) (body : Str) : Option RangeReply :=
  if header ≠ [] ∧ body ≠ [] ∧ honoured = true then
    match parseSingleRange header body.length with
    | .ok start length => some ⟨206, contentRange start length body.length,
        if head then [] else (body.drop start.toNat).take length.toNat⟩
    | .unsatisfiable => some ⟨416, lit "bytes */" ++ formatInt body.length, []⟩
    | .invalid => none
  else none

/-! ## What RFC 9110 assigns -/

namespace Range

def number (ds : Str) : Nat := ds.foldl (fun n b => n * 10 + (b.toNat - 48)) 0

def rangeText (first last : Str) : Str := lit "bytes=" ++ (first ++ byte '-' :: last)

/-- `FIRST-LAST`, `FIRST-`, or `-SUFFIX`, in digits. -/
structure IsRange (first last : Str) : Prop where
  digits : ∀ b ∈ first ++ last, isDigit b = true
  some : first ++ last ≠ []
  ordered : first ≠ [] → last ≠ [] → number first ≤ number last

def assigned (first last : Str) (size : Int) : RangeResult :=
  if first = [] then
    if number last = 0 then .unsatisfiable
    else .ok (size - min (number last : Int) size) (min (number last : Int) size)
  else if size ≤ number first then .unsatisfiable
  else
    .ok (number first)
      ((if last = [] then size - 1 else min (number last : Int) (size - 1)) - number first + 1)

/-- The numbers that are read fit in 64 bits: the last one is not read if the first is too large. -/
def Fits (first last : Str) (size : Int) : Prop :=
  number first < 0x8000000000000000 ∧ (number last < 0x8000000000000000 ∨ first ≠ [] ∧ size ≤ number first)

/-- Nothing that is no range but is taken for one: a blank, a sign, a reversed range, or a first
byte behind the end, where the last is not read. -/
structure Plain (header : Str) (size : Int) : Prop where
  bytes : ∀ b ∈ header, (0x20 < b ∧ b < 0x80) ∧ b ≠ byte '+'
  dash : header.count (byte '-') ≤ 1
  read : ∀ first last, header = rangeText first last → first ≠ [] → last ≠ [] →
    number first < size ∧ number first ≤ number last

section

variable {s x y header : Str} {size : Int}

theorem spaceLen_of_visible (h : ∀ b ∈ s, 0x20 < b ∧ b < 0x80) :
    spaceLen s = 0 ∧ spaceLenRev s = 0 := by
  have hspace {b : UInt8} (hb : 0x20 < b ∧ b < 0x80) : isSpace b = false := by
    grind [isSpace]
  have hne {b c : UInt8} (hb : 0x20 < b ∧ b < 0x80) (hc : 0x80 ≤ c) : (b == c) = false := by
    grind
  rcases s with _ | ⟨a, _ | ⟨b, _ | ⟨c, s⟩⟩⟩ <;>
    simp_all [spaceLen, spaceLenRev, isSpace2, isSpace3]

theorem trimSpace_of_visible (h : ∀ b ∈ s, 0x20 < b ∧ b < 0x80) : trimSpace s = s := by
  have hrev := (spaceLen_of_visible fun b hb => h b (mem_reverse.mp hb)).2
  rw [trimSpace, trimLeft, dropSpaces_of_len (spaceLen_of_visible h).1, trimRight,
    dropSpaces_of_len hrev, reverse_reverse]

theorem foldl_number (s : Str) (n : Nat) :
    s.foldl (fun (n : Int) b => n * 10 + (b.toNat - 48 : Nat)) n =
      (s.foldl (fun n b => n * 10 + (b.toNat - 48)) n : Nat) :=
  foldl_hom Nat.cast fun _ _ => rfl

theorem parseInt64_unsigned (h : ∀ b ∈ s, b ≠ byte '-' ∧ b ≠ byte '+') :
    parseInt64 s = if s ≠ [] ∧ s.all isDigit = true ∧ number s < 0x8000000000000000 then
      some (number s : Int) else none := by
  have hfold : s.foldl (fun (n : Int) b => n * 10 + (b.toNat - 48 : Nat)) 0 = number s :=
    foldl_number s 0
  have hminus : s.head? ≠ some (byte '-') := fun hs => (h _ (mem_of_head? hs)).1 rfl
  have hplus : s.head? ≠ some (byte '+') := fun hs => (h _ (mem_of_head? hs)).2 rfl
  have hlow : (-2 ^ 63 : Int) ≤ number s := by omega
  have hhigh : (number s : Int) < 2 ^ 63 ↔ number s < 0x8000000000000000 := by omega
  simp only [parseInt64, hminus, hplus, or_self, if_false, hfold, hlow, hhigh, true_and]
  cases s.all isDigit <;> by_cases hs : s = [] <;> simp [hs]

theorem bytes_of_isDigit {b : UInt8} (h : isDigit b = true) :
    (0x20 < b ∧ b < 0x80) ∧ (b ≠ byte '-' ∧ b ≠ byte '+') ∧ b ≠ byte ',' := by
  have hsigns : byte '-' = 0x2d ∧ byte '+' = 0x2b ∧ byte ',' = 0x2c := by decide
  grind [isDigit]

theorem parseInt64_digits (h : ∀ b ∈ s, isDigit b = true) (hs : s ≠ []) :
    parseInt64 s = if number s < 0x8000000000000000 then some (number s : Int) else none := by
  rw [parseInt64_unsigned fun b hb => (bytes_of_isDigit (h b hb)).2.1, all_eq_true.mpr h]
  simp [hs]

theorem resolveRange_eq_iff (h : IsRange x y) :
    resolveRange x y size = assigned x y size ↔ Fits x y size := by
  obtain ⟨hx, hy⟩ := forall_mem_append.mp h.digits
  have hord := h.ordered
  have hzero : number [] = 0 := rfl
  unfold resolveRange assigned Fits
  by_cases hfirst : x = []
  · have hlast : y ≠ [] := fun hlast => h.some (by rw [hfirst, hlast]; rfl)
    rw [parseInt64_digits hy hlast, hfirst]
    grind
  rw [parseInt64_digits hx hfirst]
  by_cases hlast : y = []
  · grind
  · rw [parseInt64_digits hy hlast]
    grind

theorem parseSingleRange_text (h : IsRange x y) (hsize : 0 < size) :
    parseSingleRange (rangeText x y) size = resolveRange x y size := by
  obtain ⟨hx, hy⟩ := forall_mem_append.mp h.digits
  have hbytes {s : Str} (hs : ∀ b ∈ s, isDigit b = true) (b : UInt8) (hb : b ∈ s) :=
    bytes_of_isDigit (hs b hb)
  have hspec : trimSpace (x ++ byte '-' :: y) = x ++ byte '-' :: y :=
    trimSpace_of_visible (forall_mem_append.mpr ⟨fun b hb => (hbytes hx b hb).1,
      forall_mem_cons.mpr ⟨by decide, fun b hb => (hbytes hy b hb).1⟩⟩)
  have hprefix : hasPrefix (rangeText x y) (lit "bytes=") = true :=
    isPrefixOf_iff_prefix.mpr (prefix_append _ _)
  have hdrop : (rangeText x y).drop 6 = x ++ byte '-' :: y := rfl
  have hcomma : ¬(x ++ byte '-' :: y = [] ∨ byte ',' ∈ x ++ byte '-' :: y) := by
    have hne : byte ',' ≠ byte '-' := by decide
    have hx' : byte ',' ∉ x := fun hb => (hbytes hx _ hb).2.2 rfl
    have hy' : byte ',' ∉ y := fun hb => (hbytes hy _ hb).2.2 rfl
    simp [hne, hx', hy']
  rw [parseSingleRange, if_neg (by omega), if_pos hprefix]
  simp only [hdrop, hspec, if_neg hcomma, cut_append y fun hb => (hbytes hx _ hb).2.1.1 rfl,
    trimSpace_of_visible fun b hb => (hbytes hx b hb).1,
    trimSpace_of_visible fun b hb => (hbytes hy b hb).1]

theorem parseSingleRange_cases (hsize : 0 < size) (header : Str) :
    parseSingleRange header size = .invalid ∨
      ∃ spec x y, header = lit "bytes=" ++ spec ∧ trimSpace spec = x ++ byte '-' :: y ∧
        parseSingleRange header size = resolveRange (trimSpace x) (trimSpace y) size := by
  rw [parseSingleRange, if_neg (by omega)]
  split
  case isFalse => exact .inl rfl
  case isTrue hprefix =>
    obtain ⟨spec, rfl⟩ := isPrefixOf_iff_prefix.mp hprefix
    have hdrop : (lit "bytes=" ++ spec).drop 6 = spec := rfl
    dsimp only
    rw [hdrop]
    split
    · exact .inl rfl
    · split
      · exact .inl rfl
      case h_2 x y hcut => exact .inr ⟨spec, x, y, rfl, (cut_eq_some hcut).1, rfl⟩

theorem resolveRange_invalid (hx : ∀ b ∈ x, b ≠ byte '-' ∧ b ≠ byte '+')
    (hy : ∀ b ∈ y, b ≠ byte '-' ∧ b ≠ byte '+') (hnone : ¬IsRange x y)
    (hread : x ≠ [] → y ≠ [] → number x < size ∧ number x ≤ number y) :
    resolveRange x y size = .invalid := by
  have hdigits (h₁ : x.all isDigit = true) (h₂ : y.all isDigit = true) : x = [] ∧ y = [] := by
    by_contra hsome
    exact hnone ⟨forall_mem_append.mpr ⟨all_eq_true.mp h₁, all_eq_true.mp h₂⟩,
      fun h => hsome (append_eq_nil_iff.mp h), fun h₁ h₂ => (hread h₁ h₂).2⟩
  unfold resolveRange
  rw [parseInt64_unsigned hx, parseInt64_unsigned hy]
  by_cases hfirst : x = []
  · have hall : x.all isDigit = true := by rw [hfirst]; rfl
    grind
  by_cases hall : x.all isDigit = true
  · have hlast : y.all isDigit = false := by grind
    have hne : y ≠ [] := by grind
    grind
  · grind

theorem parseSingleRange_invalid (hsize : 0 < size) (h : Plain header size)
    (hnone : ¬∃ first last, IsRange first last ∧ header = rangeText first last) :
    parseSingleRange header size = .invalid := by
  refine (parseSingleRange_cases hsize header).elim id ?_
  rintro ⟨spec, x, y, rfl, hspec, heq⟩
  have hbytes := (forall_mem_append.mp h.bytes).2
  rw [trimSpace_of_visible fun b hb => (hbytes b hb).1] at hspec
  subst hspec
  obtain ⟨hx, hy⟩ := forall_mem_append.mp hbytes
  have hy := (forall_mem_cons.mp hy).2
  have hdash := h.dash
  rw [count_append, count_append, count_cons_self] at hdash
  have hdash {s : Str} (hs : s.count (byte '-') = 0) (b : UInt8) (hb : b ∈ s) : b ≠ byte '-' := by
    rintro rfl
    exact count_eq_zero.mp hs hb
  rw [heq, trimSpace_of_visible fun b hb => (hx b hb).1,
    trimSpace_of_visible fun b hb => (hy b hb).1]
  exact resolveRange_invalid (fun b hb => ⟨hdash (by omega) b hb, (hx b hb).2⟩)
    (fun b hb => ⟨hdash (by omega) b hb, (hy b hb).2⟩) (fun hr => hnone ⟨x, y, hr, rfl⟩)
    (h.read x y rfl)

theorem parseSingleRange_within (hsize : 0 < size) {start length : Int}
    (h : parseSingleRange header size = .ok start length) :
    0 ≤ start ∧ 1 ≤ length ∧ start + length ≤ size := by
  obtain hnone | ⟨spec, x, y, -, -, heq⟩ := parseSingleRange_cases hsize header
  · rw [hnone] at h
    cases h
  · rw [heq, resolveRange] at h
    repeat' split at h
    all_goals grind

end

end Range

open Range

end Cadish
