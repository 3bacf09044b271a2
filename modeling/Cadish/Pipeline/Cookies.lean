import Cadish.Pipeline.Request

/-!
# Reading and writing cookies

Two phases write some of the cookies read back into the field, and reading is not the inverse of
writing. Names survive; **a value is read back as `rewritten` of it**
(`parseLenientCookies_writeCookies`); what is read was in the field (`parseLenientCookies_subset`).
-/

namespace Cadish

open List Str CookieKV

variable {c : CookieKV}

/-! ## Trimming

`dropSpaces len` is shared by the two ends; what is needed of `len` is that it counts at most
the bytes that are there, and that an equals sign is neither a space nor part of one. -/

namespace Str

variable {len : Str → Nat} {s x : Str}

theorem dropSpaces_suffix (len : Str → Nat) (k : Nat) (s : Str) : dropSpaces len k s <:+ s := by
  induction s generalizing k with
  | nil => cases k <;> exact suffix_refl _
  | cons b s ih =>
    cases k with
    | succ k => exact (ih k).trans (suffix_cons b s)
    | zero =>
      rw [dropSpaces]
      split
      · exact suffix_refl _
      · exact (ih _).trans (suffix_cons b s)

theorem len_dropSpaces (hnil : len [] = 0) (k : Nat) (s : Str) : len (dropSpaces len k s) = 0 := by
  induction s generalizing k with
  | nil => cases k <;> simpa [dropSpaces] using hnil
  | cons b s ih =>
    cases k with
    | succ k => exact ih k
    | zero =>
      rw [dropSpaces]
      split
      · assumption
      · exact ih _

theorem dropSpaces_of_len (h : len s = 0) : dropSpaces len 0 s = s := by
  cases s with
  | nil => rfl
  | cons b s => rw [dropSpaces, h]

theorem dropSpaces_append {stop : UInt8} {r : Str} (hlen : ∀ x : Str, len x ≤ x.length)
    (hstop : ∀ x, len (x ++ stop :: r) = len x) (x : Str) (k : Nat) (hk : k ≤ x.length) :
    dropSpaces len k (x ++ stop :: r) = dropSpaces len k x ++ stop :: r := by
  induction x generalizing k with
  | nil =>
    obtain rfl : k = 0 := Nat.le_zero.mp hk
    have h0 : len (stop :: r) = 0 := by
      have := hstop []
      have := hlen []
      simp_all
    exact dropSpaces_of_len h0
  | cons a x ih =>
    cases k with
    | succ k => exact ih k (Nat.le_of_succ_le_succ hk)
    | zero =>
      have ha : len (a :: (x ++ stop :: r)) = len (a :: x) := hstop (a :: x)
      simp only [cons_append, dropSpaces, ha]
      cases hn : len (a :: x) with
      | zero => rfl
      | succ n =>
        have hle : n + 1 ≤ x.length + 1 := hn ▸ hlen (a :: x)
        exact ih n (Nat.le_of_succ_le_succ hle)

theorem spaceLen_le (x : Str) : spaceLen x ≤ x.length := by
  rcases x with _ | ⟨a, _ | ⟨b, _ | ⟨c, x⟩⟩⟩
  · exact Nat.le_refl 0
  all_goals
    simp only [spaceLen, length_cons]
    split_ifs <;> omega

theorem spaceLenRev_le (x : Str) : spaceLenRev x ≤ x.length := by
  rcases x with _ | ⟨a, _ | ⟨b, _ | ⟨c, x⟩⟩⟩
  · exact Nat.le_refl 0
  all_goals
    simp only [spaceLenRev, length_cons]
    split_ifs <;> omega

theorem byte_eq_sign : byte '=' = 61 := by decide

@[simp] theorem isSpace_eq : isSpace (byte '=') = false := by decide

@[simp] theorem isSpace2_eq_left (a : UInt8) : isSpace2 (byte '=') a = false := by
  simp [isSpace2, byte_eq_sign]

@[simp] theorem isSpace2_eq_right (a : UInt8) : isSpace2 a (byte '=') = false := by
  simp [isSpace2, byte_eq_sign]

@[simp] theorem isSpace3_eq_left (a b : UInt8) : isSpace3 (byte '=') a b = false := by
  simp [isSpace3, byte_eq_sign]

@[simp] theorem isSpace3_eq_middle (a b : UInt8) : isSpace3 a (byte '=') b = false := by
  simp [isSpace3, byte_eq_sign]

@[simp] theorem isSpace3_eq_right (a b : UInt8) : isSpace3 a b (byte '=') = false := by
  simp [isSpace3, byte_eq_sign]

theorem spaceLen_append_eq (x r : Str) : spaceLen (x ++ byte '=' :: r) = spaceLen x := by
  rcases x with _ | ⟨a, _ | ⟨b, _ | ⟨c, x⟩⟩⟩
  · rcases r with _ | ⟨c, _ | ⟨d, r⟩⟩ <;> simp [spaceLen]
  · rcases r with _ | ⟨c, r⟩ <;> simp [spaceLen]
  · simp [spaceLen]
  · rfl

theorem spaceLenRev_append_eq (x r : Str) : spaceLenRev (x ++ byte '=' :: r) = spaceLenRev x := by
  rcases x with _ | ⟨a, _ | ⟨b, _ | ⟨c, x⟩⟩⟩
  · rcases r with _ | ⟨c, _ | ⟨d, r⟩⟩ <;> simp [spaceLenRev]
  · rcases r with _ | ⟨c, r⟩ <;> simp [spaceLenRev]
  · simp [spaceLenRev]
  · rfl

theorem spaceLen_of_isPrefix {y : Str} (h : x <+: y) (hy : spaceLen y = 0) : spaceLen x = 0 := by
  obtain ⟨r, rfl⟩ := h
  rcases x with _ | ⟨a, _ | ⟨b, _ | ⟨c, x⟩⟩⟩
  · rfl
  · rcases r with _ | ⟨b, _ | ⟨c, r⟩⟩ <;> simp only [spaceLen] at hy ⊢ <;>
      split_ifs at hy ⊢ <;> simp_all
  · rcases r with _ | ⟨c, r⟩ <;> simp only [cons_append, spaceLen] at hy ⊢ <;>
      split_ifs at hy ⊢ <;> simp_all
  · exact hy

theorem trimLeft_append_eq (x r : Str) : trimLeft (x ++ byte '=' :: r) = trimLeft x ++ byte '=' :: r :=
  dropSpaces_append spaceLen_le (fun y => spaceLen_append_eq y r) x 0 (Nat.zero_le _)

theorem trimRight_append_eq (x v : Str) :
    trimRight (x ++ byte '=' :: v) = x ++ byte '=' :: trimRight v := by
  have hrev : (x ++ byte '=' :: v).reverse = v.reverse ++ byte '=' :: x.reverse := by simp
  have hdrop := dropSpaces_append spaceLenRev_le (fun y => spaceLenRev_append_eq y x.reverse)
    v.reverse 0 (Nat.zero_le _)
  rw [trimRight, hrev, hdrop]
  simp [trimRight]

theorem trimLeft_suffix (s : Str) : trimLeft s <:+ s := dropSpaces_suffix _ _ _

theorem isPrefix_trimRight (s : Str) : trimRight s <+: s := by
  rw [← reverse_suffix, trimRight, reverse_reverse]
  exact dropSpaces_suffix _ _ _

theorem spaceLen_trimSpace (s : Str) : spaceLen (trimSpace s) = 0 :=
  spaceLen_of_isPrefix (isPrefix_trimRight _) (len_dropSpaces rfl 0 s)

theorem trimLeft_trimSpace (s : Str) : trimLeft (trimSpace s) = trimSpace s :=
  dropSpaces_of_len (spaceLen_trimSpace s)

theorem trimRight_trimSpace (s : Str) : trimRight (trimSpace s) = trimSpace s := by
  rw [trimSpace, trimRight, trimRight, reverse_reverse, dropSpaces_of_len (len_dropSpaces rfl 0 _)]

theorem trimSpace_trimSpace (s : Str) : trimSpace (trimSpace s) = trimSpace s := by
  rw [trimSpace, trimLeft_trimSpace, trimRight_trimSpace]

theorem trimSpace_subset (s : Str) : trimSpace s ⊆ s :=
  List.Subset.trans (isPrefix_trimRight _).subset (trimLeft_suffix s).subset

theorem unquote_subset (s : Str) : unquote s ⊆ s := by
  rw [unquote]
  split
  · exact List.Subset.trans (dropLast_subset _) (tail_sublist s).subset
  · exact List.Subset.refl s

theorem join_spaced (sep : UInt8) (x : Str) (xs : List Str) :
    join [sep, 0x20] (x :: xs) = join [sep] (x :: xs.map (cons 0x20)) := by
  induction xs generalizing x with
  | nil => rfl
  | cons y ys ih =>
    have := ih y
    simp only [join, intercalate_cons_cons] at this ⊢
    cases ys with
    | nil => simp
    | cons z zs =>
      rw [this]
      simp

theorem subset_join (sep : Str) {xs : List Str} (h : x ∈ xs) : x ⊆ join sep xs := by
  induction xs with
  | nil => cases h
  | cons y ys ih =>
    cases ys with
    | nil =>
      obtain rfl := mem_singleton.mp h
      simp [join]
    | cons z zs =>
      simp only [join, intercalate_cons_cons] at ih ⊢
      intro b hb
      rcases mem_cons.mp h with rfl | h
      · simp [hb]
      · exact mem_append_right _ (ih h hb)

theorem mem_split_subset {sep : UInt8} (h : x ∈ split sep s) : x ⊆ s := by
  have hs := subset_join [sep] h
  rwa [join, split, intercalate_splitOn] at hs

theorem not_mem_of_mem_split {sep : UInt8} (h : x ∈ split sep s) : sep ∉ x := by
  induction s generalizing x with
  | nil =>
    obtain rfl : x = [] := by simpa [split] using h
    exact not_mem_nil
  | cons b s ih =>
    rw [split, splitOn, splitOnP_cons_eq_if_modifyHead] at h
    split at h
    · rcases mem_cons.mp h with rfl | h
      · exact not_mem_nil
      · exact ih h
    case isFalse hb =>
      cases hs : s.splitOnP (fun c => c == sep) with
      | nil => simp [hs] at h
      | cons y ys =>
        have hy : y ∈ split sep s := by simp [split, splitOn, hs]
        rw [hs] at h
        rcases mem_cons.mp h with rfl | h
        · have hne : ¬b = sep := by simpa using hb
          rw [mem_cons, not_or]
          exact ⟨fun h => hne h.symm, ih hy⟩
        · exact ih (by simp [split, splitOn, hs, h])

end Str

/-! ## What is read -/

namespace CookieKV

structure Parsed (c : CookieKV) : Prop where
  name_ne : c.name ≠ []
  trimmed : c.name.trimSpace = c.name
  no_eq : byte '=' ∉ c.name
  no_sep : byte ';' ∉ c.name ∧ byte ';' ∉ c.value

def text (c : CookieKV) : Str := c.name ++ byte '=' :: c.value

/-- A value as it is read back: without the white space around it, and without quotes. -/
def rewritten (v : Str) : Str := unquote (trimSpace (trimRight v))

def reread (c : CookieKV) : CookieKV := ⟨c.name, rewritten c.value⟩

end CookieKV

theorem parseCookiePart_eq_some {part : Str} (h : parseCookiePart part = some c) :
    c.name ≠ [] ∧ c.name.trimSpace = c.name ∧ byte '=' ∉ c.name ∧ c.name ⊆ part ∧
      c.value ⊆ part := by
  have hpart := trimSpace_subset part
  simp only [parseCookiePart] at h
  split at h
  · cases h
  cases hcut : part.trimSpace.cut (byte '=') with
  | none =>
    simp only [hcut] at h
    split at h
    · cases h
    case isFalse hne =>
      cases h
      exact ⟨hne, trimSpace_trimSpace part, cut_eq_none hcut, hpart, nil_subset part⟩
  | some nv =>
    obtain ⟨n, v⟩ := nv
    simp only [hcut] at h
    split at h
    · cases h
    case isFalse hne =>
      cases h
      obtain ⟨hnv, hn⟩ := cut_eq_some hcut
      have hname : n ⊆ part := by
        refine List.Subset.trans ?_ hpart
        simp [hnv]
      have hvalue : v ⊆ part := by
        refine List.Subset.trans ?_ hpart
        intro b hb
        simp [hnv, hb]
      exact ⟨hne, trimSpace_trimSpace n, fun h => hn (trimSpace_subset n h),
        List.Subset.trans (trimSpace_subset n) hname,
        List.Subset.trans (unquote_subset _)
          (List.Subset.trans (trimSpace_subset v) hvalue)⟩

theorem parseLenientCookies_parsed {raw : Str} (h : c ∈ parseLenientCookies raw) : c.Parsed := by
  obtain ⟨part, hpart, hc⟩ := mem_filterMap.mp h
  obtain ⟨hne, htrim, heq, hname, hvalue⟩ := parseCookiePart_eq_some hc
  have hsep := not_mem_of_mem_split hpart
  exact ⟨hne, htrim, heq, fun h => hsep (hname h), fun h => hsep (hvalue h)⟩

theorem parseLenientCookies_subset {raw : Str} (h : c ∈ parseLenientCookies raw) :
    c.name ⊆ raw ∧ c.value ⊆ raw := by
  obtain ⟨part, hpart, hc⟩ := mem_filterMap.mp h
  obtain ⟨-, -, -, hname, hvalue⟩ := parseCookiePart_eq_some hc
  have hraw := mem_split_subset hpart
  exact ⟨List.Subset.trans hname hraw, List.Subset.trans hvalue hraw⟩

theorem lenientCookies_parsed {h : Header} (hc : c ∈ lenientCookies h) : c.Parsed := by
  rw [lenientCookies] at hc
  split at hc
  · cases hc
  · exact parseLenientCookies_parsed hc

/-! ## What is written -/

/-- The field the phases write: the cookies, with a semicolon and a space between them. -/
def writeCookies (cs : List CookieKV) : Str := join (lit "; ") (cs.map text)

theorem parseCookiePart_text (hc : c.Parsed) : parseCookiePart c.text = some c.reread := by
  have htrim : trimSpace c.text = c.name ++ byte '=' :: c.value.trimRight := by
    have hleft : trimLeft c.name = c.name := by
      rw [← hc.trimmed, trimLeft_trimSpace]
    rw [trimSpace, text, trimLeft_append_eq, hleft, trimRight_append_eq]
  have hcut := cut_append c.value.trimRight hc.no_eq
  simp [parseCookiePart, htrim, hcut, hc.trimmed, hc.name_ne, reread, rewritten]

theorem parseCookiePart_space (part : Str) : parseCookiePart (0x20 :: part) = parseCookiePart part := by
  have hspace (s : Str) : spaceLen (0x20 :: s) = 1 := by
    rcases s with _ | ⟨a, _ | ⟨b, s⟩⟩ <;> rfl
  have htrim : trimSpace (0x20 :: part) = trimSpace part := by
    simp only [trimSpace, trimLeft, dropSpaces, hspace]
  simp only [parseCookiePart, htrim]

theorem parseLenientCookies_append (x y : Str) :
    parseLenientCookies (x ++ byte ';' :: y) = parseLenientCookies x ++ parseLenientCookies y := by
  have hsplit : split (byte ';') (x ++ byte ';' :: y) =
      split (byte ';') x ++ split (byte ';') y := splitOn_append_cons_self x y
  rw [parseLenientCookies, hsplit, filterMap_append, parseLenientCookies, parseLenientCookies]

theorem parseLenientCookies_space (x : Str) :
    parseLenientCookies (0x20 :: x) = parseLenientCookies x := by
  obtain ⟨part, parts, hx⟩ := exists_cons_of_ne_nil (splitOn_ne_nil (byte ';') x)
  have hsplit : splitOn (byte ';') (0x20 :: x) = (0x20 :: part) :: parts := by
    rw [splitOn_eq_splitOnP, splitOnP_cons_eq_if_modifyHead, ← splitOn_eq_splitOnP, hx]
    rfl
  rw [parseLenientCookies, parseLenientCookies, split, split, hsplit, hx,
    filterMap_cons, filterMap_cons, parseCookiePart_space]

theorem lenientCookies_eq_flatMap (h : Header) :
    lenientCookies h = (h.values (lit "Cookie")).flatMap parseLenientCookies := by
  have hvals : h.values (lit "Cookie") = (h.lookup (lit "Cookie")).getD [] := rfl
  have hsep : lit "; " = [byte ';', 0x20] := by decide
  have hlines : ∀ l ls, parseLenientCookies (join (lit "; ") (l :: ls)) =
      (l :: ls).flatMap parseLenientCookies := by
    intro l ls
    induction ls generalizing l with
    | nil => simp [join]
    | cons m ls ih =>
      have hjoin : join (lit "; ") (l :: m :: ls) =
          l ++ byte ';' :: 0x20 :: join (lit "; ") (m :: ls) := by
        simp [join, hsep]
      rw [hjoin, parseLenientCookies_append, parseLenientCookies_space, ih]
      rfl
  rw [lenientCookies, ← hvals]
  cases h.values (lit "Cookie") with
  | nil => rfl
  | cons l ls => exact hlines l ls

theorem parseLenientCookies_writeCookies {cs : List CookieKV} (hcs : ∀ c ∈ cs, c.Parsed) :
    parseLenientCookies (writeCookies cs) = cs.map reread := by
  cases cs with
  | nil => decide
  | cons c cs =>
    have hsep : lit "; " = [byte ';', 0x20] := by decide
    have hno : ∀ x ∈ c.text :: (cs.map text).map (cons 0x20), byte ';' ∉ x := by
      have htext : ∀ c' ∈ c :: cs, byte ';' ∉ c'.text := by
        intro c' hc' hb
        obtain ⟨hn, hv⟩ := (hcs c' hc').no_sep
        have hne : byte ';' ≠ byte '=' := by decide
        simp [text, hn, hv, hne] at hb
      have hne : byte ';' ≠ 0x20 := by decide
      intro x hx hb
      simp only [List.map_map, mem_cons, List.mem_map] at hx
      rcases hx with rfl | ⟨c', hc', rfl⟩
      · exact htext c (by simp) hb
      · rcases mem_cons.mp hb with hb | hb
        · exact hne hb
        · exact htext c' (by simp [hc']) hb
    have hsplit : (writeCookies (c :: cs)).split (byte ';') =
        c.text :: (cs.map text).map (cons 0x20) := by
      rw [writeCookies, map_cons, hsep, join_spaced, split, join,
        splitOn_intercalate _ hno (cons_ne_nil _ _)]
    have hread : ∀ c' ∈ c :: cs, parseCookiePart c'.text = some c'.reread :=
      fun c' hc' => parseCookiePart_text (hcs c' hc')
    rw [parseLenientCookies, hsplit, filterMap_cons_some (hread c (by simp)), List.map_map,
      filterMap_map, ← filterMap_eq_map]
    congr 1
    refine filterMap_congr fun c' hc' => ?_
    rw [Function.comp, Function.comp, parseCookiePart_space, hread c' (by simp [hc'])]
    rfl

end Cadish
