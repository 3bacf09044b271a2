import Cadish.Pipeline.KeyValues
import Cadish.Geo.Netip
import Cadish.Server.Paths

/-!
# The path that is dialed

What the origin reads off the URL it is sent has **the segments of the base path and then those of
the matched path** (`dialed_path_matched`), on the origin's own scheme and authority: the confinement
check of `urlFor` says that the base path stays.
-/

namespace Cadish

open List Str
open Option hiding join

variable {out segs : List Str} {rooted : Bool} {seg p base d key : Str}

/-! ## Segments -/

def pathSegments (p : Str) : List Str := (split (byte '/') p).filter (· ≠ [])

/-- The segment is a name: neither this directory nor the one above. -/
def IsName (seg : Str) : Prop := seg ≠ lit "." ∧ seg ≠ lit ".."

theorem pathSegments_append (p q : Str) :
    pathSegments (p ++ byte '/' :: q) = pathSegments p ++ pathSegments q := by
  rw [pathSegments, split_append_slash, filter_append]
  rfl

@[simp] theorem pathSegments_nil : pathSegments [] = [] := by decide

theorem pathSegments_cons (q : Str) : pathSegments (byte '/' :: q) = pathSegments q := by
  exact pathSegments_append [] q

theorem pathSegments_snoc (p : Str) : pathSegments (p ++ lit "/") = pathSegments p := by
  rw [lit_slash, pathSegments_append, pathSegments_nil, append_nil]

theorem pathSegments_join (h : ∀ seg ∈ segs, seg ≠ [] ∧ byte '/' ∉ seg) :
    pathSegments (join (lit "/") segs) = segs := by
  by_cases hne : segs = []
  · subst hne
    exact pathSegments_nil
  · rw [pathSegments, split_join hne fun seg hseg => (h seg hseg).2]
    exact filter_eq_self.mpr fun seg hseg => by simpa using (h seg hseg).1

theorem foldl_cleanSegment_names (h : ∀ seg ∈ segs.filter (· ≠ []), IsName seg) (out : List Str) :
    segs.foldl (cleanSegment rooted) out = (segs.filter (· ≠ [])).reverse ++ out := by
  induction segs generalizing out with
  | nil => rfl
  | cons seg segs ih =>
    by_cases hnil : seg = []
    · subst hnil
      exact ih h out
    · rw [filter_cons_of_pos (by simpa using hnil)] at h ⊢
      obtain ⟨hseg, hsegs⟩ := forall_mem_cons.mp h
      rw [foldl_cons, cleanSegment_push (not_or.mpr ⟨hnil, hseg.1⟩) hseg.2, ih hsegs]
      simp

/-! ## Below the base path -/

def unrooted (key : Str) : Str := if hasPrefix key (lit "/") then key.drop 1 else key

def trimSlash (base : Str) : Str := if hasSuffix base (lit "/") then base.dropLast else base

/-- The key below the base path, before cleaning. -/
def belowBase (base key : Str) : Str := trimSlash base ++ byte '/' :: unrooted key

theorem pathSegments_unrooted (key : Str) : pathSegments (unrooted key) = pathSegments key := by
  rw [unrooted]
  split
  case isTrue h =>
    obtain ⟨q, rfl⟩ := isPrefixOf_iff_prefix.mp h
    exact (pathSegments_cons q).symm
  case isFalse => rfl

theorem pathSegments_trimSlash (base : Str) : pathSegments (trimSlash base) = pathSegments base := by
  rw [trimSlash]
  split
  case isTrue h =>
    obtain ⟨q, rfl⟩ := isSuffixOf_iff_suffix.mp h
    have hlast : (q ++ lit "/").dropLast = q := dropLast_concat
    rw [hlast, pathSegments_snoc]
  case isFalse => rfl

theorem trimSlash_cases (h : base = [] ∨ base.head? = some (byte '/')) :
    trimSlash base = [] ∨ (trimSlash base).head? = some (byte '/') := by
  rw [trimSlash]
  split
  case isTrue hsuf =>
    obtain ⟨q, rfl⟩ := isSuffixOf_iff_suffix.mp hsuf
    have hlast : (q ++ lit "/").dropLast = q := dropLast_concat
    rw [hlast]
    cases q with
    | nil => exact .inl rfl
    | cons b q => exact .inr (h.resolve_left (cons_ne_nil _ _))
  case isFalse => exact h

def slashAs (p clean : Str) : Str :=
  if hasSuffix p (lit "/") ∧ clean ≠ lit "/" then clean ++ lit "/" else clean

theorem pathSegments_slashAs (p clean : Str) :
    pathSegments (slashAs p clean) = pathSegments clean := by
  rw [slashAs]
  split
  · exact pathSegments_snoc clean
  · rfl

theorem belowBase_rooted (h : base = [] ∨ base.head? = some (byte '/')) :
    (belowBase base key).head? = some (byte '/') := by
  rw [belowBase]
  obtain hnil | hhead := trimSlash_cases h
  · rw [hnil]
    rfl
  · rw [head?_append, hhead]
    rfl

/-- Cleaning keeps the names of a path below what it has made of the base path. -/
theorem foldl_belowBase (hkey : ∀ seg ∈ pathSegments key, IsName seg) :
    (split (byte '/') (belowBase base key)).foldl (cleanSegment rooted) [] =
      (pathSegments key).reverse ++ (split (byte '/') (trimSlash base)).foldl (cleanSegment rooted) [] := by
  rw [← pathSegments_unrooted] at hkey ⊢
  rw [belowBase, split_append_slash, foldl_append, foldl_cleanSegment_names hkey]
  rfl

theorem urlFor_eq (base key : Str) : urlFor base key =
    if slashAs (belowBase base key) (pathClean (belowBase base key)) = trimSlash base ∨
        slashAs (belowBase base key) (pathClean (belowBase base key)) = trimSlash base ++ lit "/" ∨
        hasPrefix (slashAs (belowBase base key) (pathClean (belowBase base key)))
          (trimSlash base ++ lit "/")
    then some (slashAs (belowBase base key) (pathClean (belowBase base key))) else none := by
  have hjoined : trimSlash base ++ lit "/" ++ unrooted key = belowBase base key := by
    rw [append_assoc]
    rfl
  unfold urlFor
  dsimp only
  rw [← unrooted, ← trimSlash, hjoined, ← slashAs]

theorem urlFor_eq_some (h : urlFor base key = some d) :
    d = slashAs (belowBase base key)
      (pathClean (belowBase base key)) ∧
    (d = trimSlash base ∨ ∃ rest, d = trimSlash base ++ byte '/' :: rest) := by
  rw [urlFor_eq] at h
  obtain ⟨hin, heq⟩ := ite_none_right_eq_some.mp h
  obtain rfl := some.inj heq
  refine ⟨rfl, ?_⟩
  obtain hbase | hbase | hbase := hin
  · exact .inl hbase
  · exact .inr ⟨[], hbase.trans (by rw [lit_slash])⟩
  · obtain ⟨rest, hrest⟩ := isPrefixOf_iff_prefix.mp hbase
    refine .inr ⟨rest, hrest.symm.trans ?_⟩
    rw [append_assoc]
    rfl

theorem pathClean_segments (hp : p.head? = some (byte '/')) :
    pathSegments (pathClean p) = ((split (byte '/') p).foldl (cleanSegment true) []).reverse ∧
    (pathClean p).head? = some (byte '/') ∧ ∀ seg ∈ pathSegments (pathClean p), IsName seg := by
  have hsettled := (CleanedSegments.nil true).foldl (split (byte '/') p)
  have hclean : pathClean p = byte '/' :: join (lit "/")
      ((split (byte '/') p).foldl (cleanSegment true) []).reverse := by
    rw [pathClean_eq, hp]
    rfl
  have hsegs : pathSegments (pathClean p) =
      ((split (byte '/') p).foldl (cleanSegment true) []).reverse := by
    rw [hclean]
    refine pathSegments_join fun seg hseg => ?_
    have hseg := mem_reverse.mp hseg
    exact ⟨(hsettled.kept seg hseg).1, slash_not_mem_cleaned hseg⟩
  refine ⟨hsegs, by rw [hclean]; rfl, fun seg hseg => ?_⟩
  rw [hsegs] at hseg
  have hseg := mem_reverse.mp hseg
  exact ⟨(hsettled.kept seg hseg).2, hsettled.below rfl seg hseg⟩

theorem urlFor_segments (hbase : base = [] ∨ base.head? = some (byte '/'))
    (hkey : ∀ seg ∈ pathSegments key, IsName seg) (h : urlFor base key = some d) :
    d.head? = some (byte '/') ∧ pathSegments d = pathSegments base ++ pathSegments key ∧
      ∀ seg ∈ pathSegments d, IsName seg := by
  obtain ⟨hd, hin⟩ := urlFor_eq_some h
  obtain ⟨hsegs, hhead, hnames⟩ := pathClean_segments (@belowBase_rooted _ key hbase)
  have hdsegs := pathSegments_slashAs (belowBase base key) (pathClean (belowBase base key))
  rw [← hd] at hdsegs
  -- the key goes below what is left of the base path
  have hbelow : pathSegments d = ((split (byte '/') (trimSlash base)).foldl
      (cleanSegment true) []).reverse ++ pathSegments key := by
    rw [hdsegs, hsegs, foldl_belowBase hkey, reverse_append, reverse_reverse]
  rw [← hdsegs] at hnames
  -- and the check says that the base path is left as it is
  obtain ⟨tail, htail⟩ : ∃ tail, pathSegments d = pathSegments (trimSlash base) ++ tail := by
    obtain hin | ⟨rest, hin⟩ := hin
    · exact ⟨[], by rw [hin, append_nil]⟩
    · exact ⟨pathSegments rest, by rw [hin, pathSegments_append]⟩
  have hbase : ∀ seg ∈ (split (byte '/') (trimSlash base)).filter (· ≠ []), IsName seg := by
    intro seg hseg
    refine hnames seg ?_
    rw [htail]
    exact mem_append_left _ hseg
  have hleft := @foldl_cleanSegment_names _ true hbase []
  rw [hleft, append_nil, reverse_reverse, ← pathSegments, pathSegments_trimSlash] at hbelow
  refine ⟨?_, hbelow, hnames⟩
  rw [hd, slashAs]
  split
  · rw [head?_append, hhead]
    rfl
  · exact hhead

/-- A base path that cleaning leaves as it is, but for one slash behind it. -/
def CleanBase (base : Str) : Prop :=
  trimSlash base = [] ∨ (pathClean (trimSlash base) = trimSlash base ∧ trimSlash base ≠ lit "/")

theorem join_append {xs ys : List Str} (hxs : xs ≠ []) (hys : ys ≠ []) :
    join (lit "/") (xs ++ ys) = join (lit "/") xs ++ lit "/" ++ join (lit "/") ys := by
  induction xs with
  | nil => exact absurd rfl hxs
  | cons x xs ih =>
    cases xs with
    | nil =>
      obtain ⟨y, ys, rfl⟩ := exists_cons_of_ne_nil hys
      simp [join]
    | cons x' xs =>
      have ih := ih (cons_ne_nil _ _)
      simp only [join, cons_append, intercalate_cons_cons, append_assoc] at ih ⊢
      rw [ih]

theorem eq_join_of_pathClean (hp : p.head? = some (byte '/')) (h : pathClean p = p) :
    p = byte '/' :: join (lit "/") (pathSegments p) := by
  have hsegs := (pathClean_segments hp).1
  rw [h] at hsegs
  have hclean := pathClean_eq p
  rw [h, hp] at hclean
  rw [hsegs]
  exact hclean

theorem urlFor_isSome (hclean : CleanBase base) (hbase : base = [] ∨ base.head? = some (byte '/'))
    (hkey : ∀ seg ∈ pathSegments key, IsName seg) : (urlFor base key).isSome := by
  have hextend {base clean : Str} (joined : Str) (h : clean = base ∨ ∃ rest, clean = base ++ lit "/" ++ rest) :
      slashAs joined clean = base ∨ slashAs joined clean = base ++ lit "/" ∨
        hasPrefix (slashAs joined clean) (base ++ lit "/") = true := by
    rw [slashAs]
    obtain rfl | ⟨rest, rfl⟩ := h
    · split
      · exact .inr (.inl rfl)
      · exact .inl rfl
    · refine .inr (.inr ( isPrefixOf_iff_prefix.mpr ?_))
      split
      · exact ⟨rest ++ lit "/", by simp⟩
      · exact ⟨rest, rfl⟩
  have hin : pathClean (belowBase base key) = trimSlash base ∨
      ∃ rest, pathClean (belowBase base key) = trimSlash base ++ lit "/" ++ rest := by
    obtain hnil | ⟨hclean, hroot⟩ := hclean
    · rw [belowBase, hnil]
      exact .inr ⟨_, rfl⟩
    obtain hnil | hhead := trimSlash_cases hbase
    · rw [belowBase, hnil]
      exact .inr ⟨_, rfl⟩
    have hb := eq_join_of_pathClean hhead hclean
    have hsegs : pathSegments (trimSlash base) ≠ [] := by
      intro hnil
      rw [hnil] at hb
      exact hroot hb
    have hleft := (pathClean_segments hhead).1
    rw [hclean] at hleft
    have hjoin : pathClean (belowBase base key) =
        byte '/' :: join (lit "/") (pathSegments (trimSlash base) ++ pathSegments key) := by
      rw [pathClean_eq, belowBase_rooted hbase, foldl_belowBase hkey, reverse_append,
        reverse_reverse, hleft]
      rfl
    rw [hjoin]
    by_cases hnil : pathSegments key = []
    · rw [hnil, append_nil]
      exact .inl hb.symm
    · rw [join_append hsegs hnil]
      refine .inr ⟨join (lit "/") (pathSegments key), ?_⟩
      conv_rhs => rw [hb]
      simp
  rw [urlFor_eq, if_pos (hextend _ hin)]
  rfl

/-! ## Escaping -/

variable (b : UInt8) (o : BaseURL)

/-- The bytes that `url.URL.String` leaves in a path as they are. -/
def keptInPath : Bool := queryEscape.isUnreserved b || (lit "$&+,/:;=@").elem b

def pathEscapeByte : Str :=
  if keptInPath b then [b] else [byte '%', hexDigit (b / 16), hexDigit (b % 16)]

def pathEscape (p : Str) : Str := p.flatMap pathEscapeByte

def pathUnescape : Str → Option Str
  | [] => some []
  | b :: s =>
    if b = byte '%' then
      match s with
      | hi :: lo :: s =>
        match hexVal hi, hexVal lo, pathUnescape s with
        | some hi, some lo, some s => some (UInt8.ofNat (hi * 16 + lo) :: s)
        | _, _, _ => none
      | _ => none
    else (pathUnescape s).map (b :: ·)

theorem hexVal_hexDigit {n : UInt8} (h : n < 16) : hexVal (hexDigit n) = some n.toNat := by
  have hall : ∀ k : Fin 16, hexVal (hexDigit (UInt8.ofNat k)) = some k.val := by decide
  have hdigit := hall ⟨n.toNat, UInt8.lt_iff_toNat_lt.mp h⟩
  rwa [UInt8.ofNat_toNat] at hdigit

theorem ofNat_nibbles : UInt8.ofNat ((b / 16).toNat * 16 + (b % 16).toNat) = b := by
  have hsum : (b / 16).toNat * 16 + (b % 16).toNat = b.toNat := Nat.div_add_mod' b.toNat 16
  rw [hsum, UInt8.ofNat_toNat]

theorem pathUnescape_pathEscapeByte (s : Str) :
    pathUnescape (pathEscapeByte b ++ s) = (pathUnescape s).map (b :: ·) := by
  rw [pathEscapeByte]
  split
  case isTrue hkept =>
    have hpercent : b ≠ byte '%' := by rintro rfl; exact absurd hkept (by decide)
    conv_lhs => unfold pathUnescape
    exact if_neg hpercent
  case isFalse =>
    show pathUnescape (byte '%' :: hexDigit (b / 16) :: hexDigit (b % 16) :: s) = _
    conv_lhs => unfold pathUnescape
    rw [if_pos rfl]
    dsimp only
    rw [hexVal_hexDigit (nibble_lt b).1, hexVal_hexDigit (nibble_lt b).2]
    cases pathUnescape s with
    | none => rfl
    | some s => simp only [ofNat_nibbles, map_some]

theorem pathUnescape_pathEscape (p : Str) : pathUnescape (pathEscape p) = some p := by
  induction p with
  | nil => rfl
  | cons b p ih =>
    show pathUnescape (pathEscapeByte b ++ pathEscape p) = _
    rw [pathUnescape_pathEscapeByte, ih]
    rfl

theorem not_mem_pathEscape {b : UInt8} (hb : b = byte '?' ∨ b = byte '#') (p : Str) :
    b ∉ pathEscape p := by
  intro hm
  obtain ⟨a, -, hm⟩ := mem_flatMap.mp hm
  have hno : keptInPath b = false ∧ b ≠ byte '%' ∧ queryEscape.isUnreserved b = false := by
    obtain rfl | rfl := hb
    · decide
    · decide
  obtain ⟨hkept, hpercent, hun⟩ := hno
  rw [pathEscapeByte] at hm
  split at hm
  case isTrue ha =>
    obtain rfl := mem_singleton.mp hm
    rw [hkept] at ha
    cases ha
  case isFalse =>
    simp only [mem_cons, not_mem_nil, or_false] at hm
    obtain hm | rfl | rfl := hm
    · exact hpercent hm
    · rw [isUnreserved_hexDigit (nibble_lt a).1] at hun
      cases hun
    · rw [isUnreserved_hexDigit (nibble_lt a).2] at hun
      cases hun

/-! ## From the request target to the URL -/

inductive RequestTarget where
  | asterisk
  | rooted (rest : Str)
  | bare

/-- The path that `net/http` decodes from the target, unless it refuses the request. -/
def RequestTarget.path : RequestTarget → Option Str
  | .asterisk => some (lit "*")
  | .rooted rest => pathUnescape (byte '/' :: rest)
  | .bare => some []

structure BaseURL where
  scheme : Str
  /-- the host, with its port and the user before it -/
  authority : Str
  path : Str
  /-- the query and the fragment, with their marks -/
  tail : Str
  http : scheme = lit "http" ∨ scheme = lit "https"
  host : ∀ b ∈ authority, b ≠ byte '/' ∧ b ≠ byte '?' ∧ b ≠ byte '#'
  rooted : path = [] ∨ path.head? = some (byte '/')
  marked : tail = [] ∨ tail.head? = some (byte '?') ∨ tail.head? = some (byte '#')

def BaseURL.dial (key : Str) : Option Str :=
  (urlFor o.path key).map fun p =>
    o.scheme ++ lit "://" ++ o.authority ++ pathEscape p ++ o.tail

def readURL (u : Str) : Option (Str × Str × Str) :=
  let u := u.takeWhile fun b => b != byte '?' && b != byte '#'
  let rest := u.dropWhile (· != byte ':')
  if hasPrefix rest (lit "://") then
    (pathUnescape ((rest.drop 3).dropWhile (· != byte '/'))).map fun p =>
      (u.takeWhile (· != byte ':'), (rest.drop 3).takeWhile (· != byte '/'), p)
  else none

theorem BaseURL.read_dial (hd : urlFor o.path key = some d) (hhead : d.head? = some (byte '/')) :
    (o.dial key).bind readURL = some (o.scheme, o.authority, d) := by
  have hscheme : ∀ b ∈ o.scheme, b ≠ byte ':' ∧ b ≠ byte '?' ∧ b ≠ byte '#' := by
    obtain h | h := o.http <;> rw [h] <;> decide
  have hmark : ∀ b ∈ lit "://", b ≠ byte '?' ∧ b ≠ byte '#' := by decide
  have hfront : ∀ b ∈ o.scheme ++ lit "://" ++ o.authority ++ pathEscape d,
      (b != byte '?' && b != byte '#') = true := by
    intro b hb
    have hne : b ≠ byte '?' ∧ b ≠ byte '#' := by
      rw [mem_append, mem_append, mem_append] at hb
      obtain ((hb | hb) | hb) | hb := hb
      · exact (hscheme b hb).2
      · exact hmark b hb
      · exact (o.host b hb).2
      · exact ⟨fun h => not_mem_pathEscape (.inl h) d hb, fun h => not_mem_pathEscape (.inr h) d hb⟩
    simp [hne.1, hne.2]
  have htail : o.tail.takeWhile (fun b => b != byte '?' && b != byte '#') = [] := by
    obtain h | h | h := o.marked
    · rw [h]
      rfl
    · obtain ⟨t, ht⟩ := head?_eq_some_iff.mp h
      rw [ht]
      rfl
    · obtain ⟨t, ht⟩ := head?_eq_some_iff.mp h
      rw [ht]
      rfl
  obtain ⟨q, hq⟩ : ∃ q, pathEscape d = byte '/' :: q := by
    obtain ⟨q, rfl⟩ := head?_eq_some_iff.mp hhead
    exact ⟨pathEscape q, rfl⟩
  have hcolon (rest : Str) : (o.scheme ++ byte ':' :: rest).takeWhile (· != byte ':') = o.scheme ∧
      (o.scheme ++ byte ':' :: rest).dropWhile (· != byte ':') = byte ':' :: rest := by
    have hpos : ∀ b ∈ o.scheme, (b != byte ':') = true := fun b hb => by simpa using (hscheme b hb).1
    rw [takeWhile_append_of_pos hpos, dropWhile_append_of_pos hpos]
    simp
  have hslash : (o.authority ++ pathEscape d).takeWhile (· != byte '/') = o.authority ∧
      (o.authority ++ pathEscape d).dropWhile (· != byte '/') = pathEscape d := by
    have hpos : ∀ b ∈ o.authority, (b != byte '/') = true := fun b hb => by simpa using (o.host b hb).1
    rw [takeWhile_append_of_pos hpos, dropWhile_append_of_pos hpos, hq]
    simp
  have hwrite : o.scheme ++ lit "://" ++ o.authority ++ pathEscape d =
      o.scheme ++ byte ':' :: (lit "//" ++ (o.authority ++ pathEscape d)) := by
    simp
    rfl
  rw [BaseURL.dial, hd]
  simp only [map_some, bind_some, readURL]
  rw [takeWhile_append_of_pos hfront, htail, append_nil, hwrite, (hcolon _).1, (hcolon _).2]
  have hthree : (byte ':' :: (lit "//" ++ (o.authority ++ pathEscape d))).drop 3 =
      o.authority ++ pathEscape d := rfl
  rw [hthree, hslash.1, hslash.2, pathUnescape_pathEscape]
  rfl

/-! ## Matching and dialing agree -/

theorem CleanPath.names (h : CleanPath p) : ∀ seg ∈ pathSegments p, IsName seg := by
  have hsegs {segs : List Str} (h : ∀ seg ∈ segs, CleanSegment seg) :
      pathSegments (byte '/' :: join (lit "/") segs) = segs := by
    exact pathSegments_join fun seg hseg => ⟨(h seg hseg).ne_nil, (h seg hseg).no_slash⟩
  cases h with
  | file segs h =>
    rw [hsegs h]
    exact fun seg hseg => ⟨(h seg hseg).ne_dot, (h seg hseg).ne_dots⟩
  | dir segs hne h =>
    rw [pathSegments_snoc, hsegs h]
    exact fun seg hseg => ⟨(h seg hseg).ne_dot, (h seg hseg).ne_dots⟩

theorem RequestTarget.names {t : RequestTarget} (h : t.path = some p) :
    ∀ seg ∈ pathSegments (normalizePath p), IsName seg := by
  cases t with
  | asterisk =>
    obtain rfl := some.inj h
    intro seg hseg
    obtain rfl : seg = lit "*" := mem_singleton.mp hseg
    exact ⟨by decide, by decide⟩
  | rooted rest =>
    have hrooted : p.head? = some (byte '/') := by
      unfold RequestTarget.path pathUnescape at h
      obtain ⟨q, -, rfl⟩ := map_eq_some_iff.mp h
      rfl
    exact (cleanPath_normalizePath hrooted).names
  | bare =>
    obtain rfl := some.inj h
    intro seg hseg
    cases hseg

/-- **The matched path is the dialed path.** What an origin reads off the URL that is dialed for a
client's path is on its own scheme and authority, and its segments are those of the base path and
then those of the path that was matched and keyed, names all of them. A clean base path is dialed
for every client path. And normalising a normalised path changes nothing. -/
theorem dialed_path_matched :
    (∀ (t : RequestTarget) (p u : Str), t.path = some p → o.dial (normalizePath p) = some u →
      ∃ d, readURL u = some (o.scheme, o.authority, d) ∧
        pathSegments d = pathSegments o.path ++ pathSegments (normalizePath p) ∧
        ∀ seg ∈ pathSegments d, IsName seg) ∧
    (CleanBase o.path → ∀ (t : RequestTarget) (p : Str), t.path = some p →
      (o.dial (normalizePath p)).isSome) ∧
    ∀ p, normalizePath (normalizePath p) = normalizePath p := by
  refine ⟨?_, ?_, normalizePath_normalizePath⟩
  · intro t p u hp hu
    obtain ⟨d, hd, -⟩ := map_eq_some_iff.mp hu
    obtain ⟨hhead, hsegs, hnames⟩ := urlFor_segments o.rooted (RequestTarget.names hp) hd
    have hread := o.read_dial hd hhead
    rw [hu] at hread
    exact ⟨d, hread, hsegs, hnames⟩
  · intro hclean t p hp
    rw [BaseURL.dial, isSome_map]
    exact urlFor_isSome hclean o.rooted (RequestTarget.names hp)

def mediaBase : BaseURL where
  scheme := lit "https"
  authority := lit "media.example"
  path := lit "/v1"
  tail := []
  http := .inr rfl
  host := by decide
  rooted := .inr rfl
  marked := .inl rfl

theorem dialed_path_matched_media : ∃ u d, mediaBase.dial (lit "/b/c") = some u ∧
    readURL u = some (mediaBase.scheme, mediaBase.authority, d) ∧
    pathSegments d = [lit "v1", lit "b", lit "c"] := by
  have hpath : RequestTarget.path (.rooted (lit "a/%2e%2e//b%2fc")) = some (lit "/a/..//b/c") := by
    decide +kernel
  have hnorm : normalizePath (lit "/a/..//b/c") = lit "/b/c" := by decide
  have hclean : CleanBase mediaBase.path := .inr ⟨by decide, by decide⟩
  obtain ⟨hmatched, hdialed, -⟩ := dialed_path_matched mediaBase
  obtain ⟨u, hu⟩ := isSome_iff_exists.mp (hdialed hclean _ _ hpath)
  obtain ⟨d, hread, hsegs, -⟩ := hmatched _ _ _ hpath hu
  rw [hnorm] at hu hsegs
  exact ⟨u, d, hu, hread, hsegs.trans (by decide)⟩

end Cadish
