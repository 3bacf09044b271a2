import Cadish.Runes
import Cadish.Server.Dial

/-!
# URLs as a worker sees them

The runtime parses a target by the URL standard and hands it over written out again. Parsing that
once more changes nothing (`pathname_idem`), so a `Url` carries the proof that its texts are written
out. Decoding keeps a string exactly when it consists of characters (`decodeText_eq_self_iff`).
-/

namespace Cadish

open List Str

variable {b : UInt8} {s : Str}

/-! ## Decoding characters -/

/-- Every byte is part of a character. -/
def ValidUtf8 (s : Str) : Prop := toValidRunes 0 s = s

instance (s : Str) : Decidable (ValidUtf8 s) := inferInstanceAs (Decidable (_ = _))

/-- Where no character begins: the bytes that one U+FFFD stands for, at least one. They are those
that could have begun a character. -/
def subpartLen : Str → Nat
  | b₁ :: b₂ :: s =>
    if 0xe0 ≤ b₁ ∧ b₁ ≤ 0xef then
      let low := if b₁ = 0xe0 then 0xa0 else 0x80
      let high := if b₁ = 0xed then 0x9f else 0xbf
      if low ≤ b₂ ∧ b₂ ≤ high then 2 else 1
    else if 0xf0 ≤ b₁ ∧ b₁ ≤ 0xf4 then
      let low := if b₁ = 0xf0 then 0x90 else 0x80
      let high := if b₁ = 0xf4 then 0x8f else 0xbf
      if low ≤ b₂ ∧ b₂ ≤ high then
        match s with
        | b₃ :: _ => if isContinuation b₃ then 3 else 2
        | [] => 2
      else 1
    else 1
  | _ => 1

/-- The decoder of the encoding standard; the bytes that are left of the current character are kept,
and those of a broken one are dropped. -/
def utf8Decode : Bool → Nat → Str → Str
  | _, _, [] => []
  | true, rest + 1, b :: s => b :: utf8Decode true rest s
  | false, rest + 1, _ :: s => utf8Decode false rest s
  | _, 0, b :: s =>
    match runeLen (b :: s) with
    | 0 => 0xef :: 0xbf :: 0xbd :: utf8Decode false (subpartLen (b :: s) - 1) s
    | rest + 1 => b :: utf8Decode true rest s

def decodeText (s : Str) : Str := utf8Decode true 0 s

theorem utf8Decode_keep (n : Nat) (s : Str) :
    utf8Decode true n s = s.take n ++ decodeText (s.drop n) := by
  induction n generalizing s with
  | zero => rfl
  | succ n ih =>
    cases s with
    | nil => rfl
    | cons b s => exact congrArg (b :: ·) (ih s)

theorem utf8Decode_skip (n : Nat) (s : Str) : utf8Decode false n s = decodeText (s.drop n) := by
  induction n generalizing s with
  | zero =>
    cases s with
    | nil | cons b s => rfl
  | succ n ih =>
    cases s with
    | nil => rfl
    | cons b s => exact ih s

theorem decodeText_rune {n : Nat} (h : runeLen (b :: s) = n + 1) :
    decodeText (b :: s) = b :: s.take n ++ decodeText (s.drop n) := by
  simp only [decodeText, utf8Decode, h]
  exact congrArg (b :: ·) (utf8Decode_keep n s)

theorem decodeText_broken (h : runeLen (b :: s) = 0) :
    decodeText (b :: s) =
      0xef :: 0xbf :: 0xbd :: decodeText (s.drop (subpartLen (b :: s) - 1)) := by
  simp only [decodeText, utf8Decode, h]
  rw [utf8Decode_skip]
  rfl

theorem decodeText_of_valid (h : ValidUtf8 s) : decodeText s = s := by
  induction s using rune_induction with
  | nil => rfl
  | broken b s hrune =>
    -- U+FFFD in front would itself be a character
    have hsub : toValidRunes 0 (b :: s) = 0xef :: 0xbf :: 0xbd :: toValidRunes 0 s := by
      simp only [toValidRunes, hrune]
    rw [ValidUtf8, hsub] at h
    rw [← h] at hrune
    cases hrune
  | rune b s n hrune ih =>
    rw [decodeText_rune hrune, ih (toValidRunes_drop hrune h), cons_append, take_append_drop]

theorem valid_decodeText (s : Str) : ValidUtf8 (decodeText s) := by
  induction s using rune_induction with
  | nil => rfl
  | broken b s hrune ih =>
    rw [decodeText_broken hrune]
    exact congrArg (fun t : Str => 0xef :: 0xbf :: 0xbd :: t) (ih _)
  | rune b s n hrune ih =>
    obtain ⟨hle, -, hagain⟩ := runeLen_succ hrune
    have htake : (s.take n).length = n := length_take_of_le hle
    rw [decodeText_rune hrune, ValidUtf8, cons_append, toValidRunes_rune (hagain _),
      take_left' htake, drop_left' htake, ih]
    rfl

theorem validUtf8_of_ascii (h : ∀ b ∈ s, b < 0x80) : ValidUtf8 s := by
  induction s with
  | nil => rfl
  | cons b s ih =>
    obtain ⟨hb, hs⟩ := forall_mem_cons.mp h
    rw [ValidUtf8, toValidRunes_ascii hb, ih hs]

/-! ## Escapes -/

theorem count_percent_pathUnescape {d : Str} (h : pathUnescape s = some d) (hs : ∀ b ∈ s, b < 0x80) :
    d.count (byte '%') ≤ s.count (byte '%') ∧
      (d.count (byte '%') = s.count (byte '%') → ∀ b ∈ d, b < 0x80) := by
  induction s using pathUnescape.induct generalizing d with
  | case1 =>
    obtain rfl : [] = d := by simpa [pathUnescape] using h
    exact ⟨Nat.le_refl _, fun _ b hb => by cases hb⟩
  | case2 hi lo s hi' lo' s' hs' hlo hhi ih =>
    simp only [pathUnescape, if_true, hhi, hlo, hs', Option.some.injEq] at h
    subst h
    have hne {b : UInt8} {n : Nat} (hb : hexVal b = some n) : b ≠ byte '%' := by
      rintro rfl
      cases hb
    obtain ⟨hle, heq⟩ := ih hs' fun b hb => hs b (by simp [hb])
    rw [count_cons_self, count_cons_of_ne (hne hhi), count_cons_of_ne (hne hlo), count_cons]
    split
    case isTrue hc =>
      refine ⟨by omega, fun hcount => forall_mem_cons.mpr ⟨?_, heq (by omega)⟩⟩
      rw [eq_of_beq hc]
      decide
    case isFalse => exact ⟨by omega, fun hcount => by omega⟩
  | case3 hi lo s hno ih =>
    unfold pathUnescape at h
    rw [if_pos rfl] at h
    dsimp only at h
    split at h
    case h_1 hhi hlo hs => exact absurd hs (hno _ _ _ hhi hlo)
    case h_2 => cases h
  | case4 s hno =>
    unfold pathUnescape at h
    rw [if_pos rfl] at h
    split at h
    case h_1 hi lo s => exact absurd rfl (hno hi lo s)
    case h_2 => cases h
  | case5 b s hb ih =>
    unfold pathUnescape at h
    rw [if_neg hb] at h
    obtain ⟨d', hd', rfl⟩ := Option.map_eq_some_iff.mp h
    obtain ⟨hle, heq⟩ := ih hd' fun c hc => hs c (by simp [hc])
    rw [count_cons_of_ne hb, count_cons_of_ne hb]
    exact ⟨hle, fun hcount => forall_mem_cons.mpr ⟨hs b (by simp), heq hcount⟩⟩

namespace Edge

variable {s : Str} {set : UInt8 → Bool} {segs : List Str}

/-- `decodeURIComponent` of a text of ASCII: `none` where it throws. -/
def decodeURIComponent (s : Str) : Option Str := (pathUnescape s).filter (ValidUtf8 ·)

/-! ## Writing a URL out -/

def inPathSet (b : UInt8) : Bool := b ≤ 0x20 || 0x7e < b || (lit "\"#<>?^`\x7b\x7d").elem b

def inQuerySet (b : UInt8) : Bool := b ≤ 0x20 || 0x7e < b || (lit "\"#<>'").elem b

def percentEncode (set : UInt8 → Bool) (s : Str) : Str :=
  s.flatMap fun b => if set b then [byte '%', hexDigit (b / 16), hexDigit (b % 16)] else [b]

variable (seg text : Str) (u : Url)

def singleDot : Bool := toLower seg ∈ [lit ".", lit "%2e"]

def doubleDot : Bool :=
  toLower seg ∈ [lit "..", lit ".%2e", lit "%2e.", lit "%2e%2e"]

/-- The path state of the URL parser, over the segments; those so far are in reverse. A dot segment
at the end leaves an empty one. -/
def parseSegments : List Str → List Str → List Str
  | out, [] => out
  | out, [seg] =>
    if doubleDot seg then [] :: out.tail else if singleDot seg then [] :: out else seg :: out
  | out, seg :: segs =>
    parseSegments
      (if doubleDot seg then out.tail else if singleDot seg then out else seg :: out) segs

def pathname : Str :=
  let text := text.map fun b => if b = byte '\\' then byte '/' else b
  let segs := (split (byte '/') (text.drop 1)).map (percentEncode inPathSet)
  byte '/' :: join (lit "/") (parseSegments [] segs).reverse

theorem percentEncode_of_kept (h : ∀ b ∈ s, set b = false) : percentEncode set s = s := by
  induction s with
  | nil => rfl
  | cons b s ih =>
    obtain ⟨hb, hs⟩ := forall_mem_cons.mp h
    rw [percentEncode, flatMap_cons, hb]
    exact congrArg (b :: ·) (ih hs)

theorem kept_of_mem_percentEncode (hpercent : set (byte '%') = false)
    (hdigit : ∀ k : Fin 16, set (hexDigit (UInt8.ofNat k)) = false) {b : UInt8}
    (h : b ∈ percentEncode set s) : set b = false := by
  have hnibble {n : UInt8} (hn : n < 16) : set (hexDigit n) = false := by
    have hn' := hdigit ⟨n.toNat, UInt8.lt_iff_toNat_lt.mp hn⟩
    rwa [UInt8.ofNat_toNat] at hn'
  obtain ⟨a, -, hb⟩ := mem_flatMap.mp h
  cases ha : set a with
  | true =>
    rw [ha, if_pos rfl] at hb
    simp only [mem_cons, not_mem_nil, or_false] at hb
    obtain rfl | rfl | rfl := hb
    · exact hpercent
    · exact hnibble (nibble_lt a).1
    · exact hnibble (nibble_lt a).2
  | false =>
    rw [ha] at hb
    obtain rfl := mem_singleton.mp hb
    exact ha

theorem mem_of_mem_percentEncode (h : b ∈ percentEncode set s)
    (hb : queryEscape.isUnreserved b = false) (hpercent : b ≠ byte '%') : b ∈ s := by
  obtain ⟨a, ha, h⟩ := mem_flatMap.mp h
  split at h
  case isTrue =>
    simp only [mem_cons, not_mem_nil, or_false] at h
    obtain h | rfl | rfl := h
    · exact absurd h hpercent
    · rw [isUnreserved_hexDigit (nibble_lt a).1] at hb
      cases hb
    · rw [isUnreserved_hexDigit (nibble_lt a).2] at hb
      cases hb
  case isFalse =>
    obtain rfl := mem_singleton.mp h
    exact ha

structure WrittenSegment (seg : Str) : Prop where
  not_single : singleDot seg = false
  not_double : doubleDot seg = false
  no_slash : byte '/' ∉ seg
  no_backslash : byte '\\' ∉ seg
  kept : ∀ b ∈ seg, inPathSet b = false

theorem writtenSegment_nil : WrittenSegment [] :=
  ⟨by decide, by decide, not_mem_nil, not_mem_nil, fun b hb => by cases hb⟩

theorem parseSegments_written (h : ∀ seg ∈ segs, WrittenSegment seg) (out : List Str) :
    parseSegments out segs = segs.reverse ++ out := by
  fun_induction parseSegments out segs with
  | case1 out | case4 out seg => rfl
  | case2 out seg hdouble =>
    rw [(h seg (by simp)).not_double] at hdouble
    cases hdouble
  | case3 out seg _ hsingle =>
    rw [(h seg (by simp)).not_single] at hsingle
    cases hsingle
  | case5 out seg segs hne ih =>
    obtain ⟨hseg, hsegs⟩ := forall_mem_cons.mp h
    rw [hseg.not_double, hseg.not_single] at ih
    rw [hseg.not_double, hseg.not_single, ih hsegs]
    simp

theorem written_parseSegments {out : List Str} (hout : ∀ seg ∈ out, WrittenSegment seg)
    (h : ∀ seg ∈ segs, singleDot seg = false → doubleDot seg = false → WrittenSegment seg) :
    ∀ seg ∈ parseSegments out segs, WrittenSegment seg := by
  have htail {out : List Str} (hout : ∀ seg ∈ out, WrittenSegment seg) :
      ∀ seg ∈ out.tail, WrittenSegment seg := fun seg hseg => hout seg (mem_of_mem_tail hseg)
  fun_induction parseSegments out segs with
  | case1 out => exact hout
  | case2 out seg hdouble => exact forall_mem_cons.mpr ⟨writtenSegment_nil, htail hout⟩
  | case3 out seg _ hsingle => exact forall_mem_cons.mpr ⟨writtenSegment_nil, hout⟩
  | case4 out seg hdouble hsingle =>
    exact forall_mem_cons.mpr
      ⟨h seg (by simp) (by simpa using hsingle) (by simpa using hdouble), hout⟩
  | case5 out seg segs hne ih =>
    refine ih ?_ fun s hs => h s (mem_cons_of_mem _ hs)
    split
    case isTrue => exact htail hout
    case isFalse hdouble =>
      split
      case isTrue => exact hout
      case isFalse hsingle =>
        exact forall_mem_cons.mpr
          ⟨h seg (by simp) (by simpa using hsingle) (by simpa using hdouble), hout⟩

theorem parseSegments_ne_nil (hne : segs ≠ []) (out : List Str) : parseSegments out segs ≠ [] := by
  fun_induction parseSegments out segs with
  | case1 out => exact absurd rfl hne
  | case2 out seg hdouble | case3 out seg _ hsingle | case4 out seg => exact cons_ne_nil _ _
  | case5 out seg segs hsegs ih => exact ih fun hc => hsegs hc

theorem exists_segments_pathname : ∃ segs, segs ≠ [] ∧
    (∀ seg ∈ segs, WrittenSegment seg) ∧
    pathname text = byte '/' :: join (lit "/") segs := by
  refine ⟨(parseSegments [] _).reverse, ?_, fun seg hseg => ?_, rfl⟩
  · intro hnil
    refine parseSegments_ne_nil ?_ [] (reverse_eq_nil_iff.mp hnil)
    exact fun hmap => splitOnP_ne_nil _ _ (map_eq_nil_iff.mp hmap)
  · refine written_parseSegments (fun s hs => by cases hs) ?_ seg (mem_reverse.mp hseg)
    intro s hs hsingle hdouble
    obtain ⟨raw, hraw, rfl⟩ := List.mem_map.mp hs
    refine ⟨hsingle, hdouble, fun hb => ?_, fun hb => ?_, fun b hb => ?_⟩
    · have hb := mem_of_mem_percentEncode hb (by decide) (by decide)
      exact not_mem_of_mem_split hraw hb
    · have hb := mem_of_mem_percentEncode hb (by decide) (by decide)
      have hb := mem_of_mem_drop (mem_split_subset hraw hb)
      obtain ⟨a, -, ha⟩ := List.mem_map.mp hb
      split at ha
      case isTrue => exact absurd ha (by decide)
      case isFalse hne => exact hne ha
    · exact kept_of_mem_percentEncode (by decide) (by decide) hb

theorem pathname_written (hne : segs ≠ []) (h : ∀ seg ∈ segs, WrittenSegment seg) :
    pathname (byte '/' :: join (lit "/") segs) = byte '/' :: join (lit "/") segs := by
  have hback : ∀ b ∈ join (lit "/") segs, b ≠ byte '\\' := by
    rintro b hb rfl
    obtain hb | ⟨seg, hseg, hb⟩ := mem_join hb
    · exact absurd hb (by decide)
    · exact (h seg hseg).no_backslash hb
  have hmap : (byte '/' :: join (lit "/") segs).map
      (fun b => if b = byte '\\' then byte '/' else b) =
        byte '/' :: join (lit "/") segs := by
    refine congrArg₂ cons (by decide) ?_
    exact (map_congr_left fun b hb => if_neg (hback b hb)).trans (List.map_id _)
  have hencode : segs.map (percentEncode inPathSet) = segs :=
    (map_congr_left fun seg hseg => percentEncode_of_kept (h seg hseg).kept).trans
      (List.map_id _)
  simp only [pathname, hmap, drop_succ_cons, drop_zero]
  rw [split_join hne fun seg hseg => (h seg hseg).no_slash, hencode, parseSegments_written h,
    append_nil, reverse_reverse]

theorem pathname_idem : pathname (pathname text) = pathname text := by
  obtain ⟨segs, hne, hsegs, htext⟩ := exists_segments_pathname text
  rw [htext]
  exact pathname_written hne hsegs

theorem percentEncode_query_idem :
    percentEncode inQuerySet (percentEncode inQuerySet text) = percentEncode inQuerySet text :=
  percentEncode_of_kept fun _ hb => kept_of_mem_percentEncode (by decide) (by decide) hb

/-! ## URLs -/

/-- A URL of a request: an `http` or `https` URL, its path and its query written out. -/
structure Url where
  https : Bool
  host : Str
  path : Str
  query : Str
  path_written : pathname path = path
  query_written : percentEncode inQuerySet query = query

/-- `new URL` on the parts of a text: what stands up to the question mark, and what behind it. -/
def Url.parse (https : Bool) (host path query : Str) : Url where
  https := https
  host := host
  path := pathname path
  query := percentEncode inQuerySet query
  path_written := pathname_idem path
  query_written := percentEncode_query_idem query

def Url.reparse : Url := Url.parse u.https u.host u.path u.query

@[simp] theorem Url.reparse_eq : u.reparse = u := by
  obtain ⟨https, host, path, query, hpath, hquery⟩ := u
  simp only [Url.reparse, Url.parse, hpath, hquery]

theorem Url.path_rooted : u.path.head? = some (byte '/') := by
  rw [← u.path_written]
  rfl

theorem Url.path_ascii : ∀ b ∈ u.path, b < 0x80 := by
  obtain ⟨segs, -, hsegs, hpath⟩ := exists_segments_pathname u.path
  rw [← u.path_written, hpath]
  refine forall_mem_cons.mpr ⟨by decide, fun b hb => ?_⟩
  obtain hb | ⟨seg, hseg, hb⟩ := mem_join hb
  · have hslash : b = byte '/' := mem_singleton.mp hb
    rw [hslash]
    decide
  · have hkept := (hsegs seg hseg).kept b hb
    simp only [inPathSet, Bool.or_eq_false_iff, decide_eq_false_iff_not, UInt8.not_lt] at hkept
    exact UInt8.lt_of_le_of_lt hkept.1.2 (by decide)

end Edge

end Cadish
