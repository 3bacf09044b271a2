import Cadish.Pipeline.Cookies

/-!
# Paths

A path is matched and keyed without control bytes, empty and dot segments, with the slash at its end
if it had one. Segments that cleaning leaves are left by it again (`CleanedSegments`), so **cleaning
twice is cleaning once** (`normalizePath_normalizePath`), and an origin with an empty base path is
asked for the path of the key (`urlFor_clean`).
-/

namespace Cadish

open List Str

variable {out segs : List Str} {rooted : Bool} {seg p : Str}

/-! ## Normalisation -/

def isControlByte (b : UInt8) : Bool := b < 0x20 || b == 0x7f

def cleanSegment (rooted : Bool) (out : List Str) (seg : Str) : List Str :=
  if seg = [] ∨ seg = lit "." then out
  else if seg = lit ".." then
    match out with
    | [] => if rooted then [] else [lit ".."]
    | top :: rest => if top = lit ".." then lit ".." :: out else rest
  else seg :: out

def pathClean (p : Str) : Str :=
  let rooted := p.head? == some (byte '/')
  let body := join (lit "/") ((split (byte '/') p).foldl (cleanSegment rooted) []).reverse
  if rooted then byte '/' :: body else if body = [] then lit "." else body

/-- `normalizePath`: control bytes dropped, the path cleaned, a trailing slash kept. -/
def normalizePath (p : Str) : Str :=
  let p := p.filter (!isControlByte ·)
  if p = [] then lit "/"
  else
    let cleaned := pathClean p
    if cleaned = p then p
    else if 1 < p.length ∧ p.getLast? = some (byte '/') ∧ cleaned ≠ lit "/" then
      cleaned ++ lit "/"
    else cleaned

def urlFor (basePath key : Str) : Option Str :=
  let key := if hasPrefix key (lit "/") then key.drop 1 else key
  let basePath := if hasSuffix basePath (lit "/") then basePath.dropLast else basePath
  let joined := basePath ++ lit "/" ++ key
  let cleaned := pathClean joined
  let cleaned := if hasSuffix joined (lit "/") ∧ cleaned ≠ lit "/" then cleaned ++ lit "/"
    else cleaned
  if cleaned = basePath ∨ cleaned = basePath ++ lit "/" ∨ hasPrefix cleaned (basePath ++ lit "/")
  then some cleaned else none

/-! ## Cleaning twice -/

structure CleanedSegments (rooted : Bool) (out : List Str) : Prop where
  kept : ∀ seg ∈ out, seg ≠ [] ∧ seg ≠ lit "."
  below : rooted = true → ∀ seg ∈ out, seg ≠ lit ".."
  again : out.reverse.foldl (cleanSegment rooted) [] = out

theorem cleanSegment_skip (h : seg = [] ∨ seg = lit ".") : cleanSegment rooted out seg = out := by
  exact if_pos h

theorem cleanSegment_push (hskip : ¬(seg = [] ∨ seg = lit ".")) (hup : seg ≠ lit "..") :
    cleanSegment rooted out seg = seg :: out := by
  unfold cleanSegment
  rw [if_neg hskip, if_neg hup]

theorem CleanedSegments.nil (rooted : Bool) : CleanedSegments rooted [] where
  kept _ h := by cases h
  below _ _ h := by cases h
  again := rfl

theorem CleanedSegments.cons (h : CleanedSegments rooted out) (hkept : seg ≠ [] ∧ seg ≠ lit ".")
    (hbelow : rooted = true → seg ≠ lit "..") (hagain : cleanSegment rooted out seg = seg :: out) :
    CleanedSegments rooted (seg :: out) where
  kept := forall_mem_cons.mpr ⟨hkept, h.kept⟩
  below hr := forall_mem_cons.mpr ⟨hbelow hr, h.below hr⟩
  again := by
    rw [reverse_cons, foldl_append, h.again]
    exact hagain

theorem CleanedSegments.tail {top : Str} {rest : List Str} (h : CleanedSegments rooted (top :: rest))
    (htop : top ≠ lit "..") : CleanedSegments rooted rest where
  kept seg hseg := h.kept seg (mem_cons_of_mem top hseg)
  below hr seg hseg := h.below hr seg (mem_cons_of_mem top hseg)
  again := by
    have hagain := h.again
    obtain ⟨hnil, hdot⟩ := h.kept top mem_cons_self
    rw [reverse_cons, foldl_append, foldl_cons,
      cleanSegment_push (not_or.mpr ⟨hnil, hdot⟩) htop] at hagain
    exact (cons.inj hagain).2

theorem CleanedSegments.step (h : CleanedSegments rooted out) (seg : Str) :
    CleanedSegments rooted (cleanSegment rooted out seg) := by
  by_cases hskip : seg = [] ∨ seg = lit "."
  · rwa [cleanSegment_skip hskip]
  by_cases hup : seg = lit ".."
  · subst hup
    cases out with
    | nil =>
      cases rooted with
      | true => exact h
      | false => exact h.cons (not_or.mp hskip) (fun hr => absurd hr (by decide)) rfl
    | cons top rest =>
      by_cases htop : top = lit ".."
      · have hgo : cleanSegment rooted (top :: rest) (lit "..") = lit ".." :: top :: rest := by
          exact if_pos htop
        rw [hgo]
        exact h.cons (not_or.mp hskip) (fun hr => absurd htop (h.below hr top mem_cons_self)) hgo
      · have hgo : cleanSegment rooted (top :: rest) (lit "..") = rest := by
          exact if_neg htop
        rw [hgo]
        exact h.tail htop
  · rw [cleanSegment_push hskip hup]
    exact h.cons (not_or.mp hskip) (fun _ => hup) (cleanSegment_push hskip hup)

theorem CleanedSegments.foldl (segs : List Str) (h : CleanedSegments rooted out) :
    CleanedSegments rooted (segs.foldl (cleanSegment rooted) out) := by
  induction segs generalizing out with
  | nil => exact h
  | cons seg segs ih => exact ih (h.step seg)

theorem mem_foldl_cleanSegment (h : seg ∈ segs.foldl (cleanSegment rooted) out) :
    seg ∈ segs ∨ seg ∈ out ∨ seg = lit ".." := by
  induction segs generalizing out with
  | nil => exact .inr (.inl h)
  | cons s segs ih =>
    obtain h | h | h := ih h
    · exact .inl (mem_cons_of_mem s h)
    · have hstep : seg = s ∨ seg ∈ out ∨ seg = lit ".." := by
        unfold cleanSegment at h
        split at h
        · exact .inr (.inl h)
        split at h
        · split at h
          · split at h
            · cases h
            · exact .inr (.inr (mem_singleton.mp h))
          · split at h
            · exact (mem_cons.mp h).elim (fun h => .inr (.inr h)) fun h => .inr (.inl h)
            · exact .inr (.inl (mem_cons_of_mem _ h))
        · exact (mem_cons.mp h).imp_right .inl
      obtain rfl | h := hstep
      · exact .inl mem_cons_self
      · exact .inr h
    · exact .inr (.inr h)

theorem slash_not_mem_cleaned (h : seg ∈ (split (byte '/') p).foldl (cleanSegment rooted) []) :
    byte '/' ∉ seg := by
  obtain hseg | hseg | rfl := mem_foldl_cleanSegment h
  · exact not_mem_of_mem_split hseg
  · cases hseg
  · decide

theorem lit_slash : lit "/" = [byte '/'] := by decide

theorem split_append_slash (p q : Str) :
    split (byte '/') (p ++ byte '/' :: q) = split (byte '/') p ++ split (byte '/') q :=
  splitOn_append_cons_self p q

theorem split_rooted (hne : segs ≠ []) (h : ∀ seg ∈ segs, byte '/' ∉ seg) :
    split (byte '/') (byte '/' :: join (lit "/") segs) = [] :: segs := by
  have hjoin : byte '/' :: join (lit "/") segs = join (lit "/") ([] :: segs) := by
    obtain ⟨seg, segs, rfl⟩ := exists_cons_of_ne_nil hne
    rfl
  rw [hjoin]
  refine splitOn_intercalate _ ?_ (cons_ne_nil _ _)
  intro seg hseg
  rcases mem_cons.mp hseg with rfl | hseg
  · exact not_mem_nil
  · exact h seg hseg

theorem split_slash (hne : segs ≠ []) (h : ∀ seg ∈ segs, byte '/' ∉ seg) :
    split (byte '/') (byte '/' :: join (lit "/") segs ++ lit "/") =
      [] :: segs ++ [[]] := by
  have hsplit := split_append_slash (byte '/' :: join (lit "/") segs) []
  rw [split_rooted hne h] at hsplit
  exact hsplit

def renderPath (rooted : Bool) (segs : List Str) : Str :=
  let body := join (lit "/") segs
  if rooted then byte '/' :: body else if body = [] then lit "." else body

theorem pathClean_eq (p : Str) : pathClean p =
    renderPath (p.head? == some (byte '/')) ((split (byte '/') p).foldl
      (cleanSegment (p.head? == some (byte '/'))) []).reverse := rfl

theorem split_join (hne : segs ≠ []) (h : ∀ seg ∈ segs, byte '/' ∉ seg) :
    split (byte '/') (join (lit "/") segs) = segs := by
  exact splitOn_intercalate _ h hne

theorem head_join (hne : segs ≠ []) (h : ∀ seg ∈ segs, seg ≠ [] ∧ byte '/' ∉ seg) (rest : Str) :
    ∃ b q, join (lit "/") segs ++ rest = b :: q ∧ b ≠ byte '/' := by
  obtain ⟨seg, segs, rfl⟩ := exists_cons_of_ne_nil hne
  obtain ⟨hseg, hslash⟩ := h seg mem_cons_self
  obtain ⟨b, seg, rfl⟩ := exists_cons_of_ne_nil hseg
  have hb : b ≠ byte '/' := fun hb => hslash (hb ▸ mem_cons_self)
  cases segs with
  | nil => exact ⟨b, seg ++ rest, by simp [join], hb⟩
  | cons seg' segs =>
    refine ⟨b, seg ++ lit "/" ++ join (lit "/") (seg' :: segs) ++ rest, ?_, hb⟩
    simp [join]

theorem pathClean_renderPath (h : CleanedSegments rooted out) (hslash : ∀ seg ∈ out, byte '/' ∉ seg) :
    pathClean (renderPath rooted out.reverse) = renderPath rooted out.reverse ∧
    pathClean (renderPath rooted out.reverse ++ lit "/") = renderPath rooted out.reverse := by
  by_cases hne : out.reverse = []
  · rw [hne]
    cases rooted <;> decide
  have hslash : ∀ seg ∈ out.reverse, byte '/' ∉ seg :=
    fun seg hseg => hslash seg (mem_reverse.mp hseg)
  have hslice : ∀ seg ∈ out.reverse, seg ≠ [] ∧ byte '/' ∉ seg :=
    fun seg hseg => ⟨(h.kept seg (mem_reverse.mp hseg)).1, hslash seg hseg⟩
  cases rooted with
  | true =>
    have hrender : renderPath true out.reverse = byte '/' :: join (lit "/") out.reverse := rfl
    have hagain : ([] :: out.reverse).foldl (cleanSegment true) [] = out := h.again
    have hdir : ([] :: out.reverse ++ [[]]).foldl (cleanSegment true) [] = out := by
      rw [foldl_append, hagain]
      rfl
    refine ⟨?_, ?_⟩
    · rw [pathClean_eq, hrender, split_rooted hne hslash]
      exact congrArg (fun l => renderPath true l.reverse) hagain
    · rw [pathClean_eq, hrender, split_slash hne hslash]
      exact congrArg (fun l => renderPath true l.reverse) hdir
  | false =>
    obtain ⟨b, q, hbody, hb⟩ := head_join hne hslice []
    rw [append_nil] at hbody
    have hrender : renderPath false out.reverse = join (lit "/") out.reverse := by
      simp [renderPath, hbody]
    have hhead (rest : Str) :
        ((join (lit "/") out.reverse ++ rest).head? == some (byte '/')) = false := by
      rw [hbody]
      simpa using hb
    have hhead₀ : ((join (lit "/") out.reverse).head? == some (byte '/')) = false := by
      simpa using hhead []
    have hdir : (out.reverse ++ [[]]).foldl (cleanSegment false) [] = out := by
      rw [foldl_append, h.again]
      rfl
    refine ⟨?_, ?_⟩
    · rw [pathClean_eq, hrender, hhead₀, split_join hne hslash, h.again, hrender]
    · rw [pathClean_eq, hrender, hhead]
      have hsplit := split_append_slash (join (lit "/") out.reverse) []
      rw [split_join hne hslash] at hsplit
      rw [show split _ (join (lit "/") out.reverse ++ lit "/") = out.reverse ++ [[]] from hsplit]
      rw [← hrender]
      exact congrArg (fun l => renderPath false l.reverse) hdir

theorem pathClean_pathClean (p : Str) :
    pathClean (pathClean p) = pathClean p ∧ pathClean (pathClean p ++ lit "/") = pathClean p :=
  pathClean_renderPath ((CleanedSegments.nil _).foldl _) fun _ => slash_not_mem_cleaned

theorem pathClean_ne_nil (p : Str) : pathClean p ≠ [] := by
  rw [pathClean_eq, renderPath]
  split
  · exact cons_ne_nil _ _
  · split
    · exact cons_ne_nil _ _
    · assumption

theorem pathClean_plain (h : ∀ b ∈ p, isControlByte b = false) :
    ∀ b ∈ pathClean p, isControlByte b = false := by
  have hlit (b : UInt8) (hb : b ∈ lit "/" ∨ b ∈ lit "." ∨ b ∈ lit "..") : isControlByte b = false := by
    have : b = byte '/' ∨ b = byte '.' := by
      obtain hb | hb | hb := hb
      · exact .inl (mem_singleton.mp hb)
      · exact .inr (mem_singleton.mp hb)
      · exact .inr ((mem_cons.mp hb).elim id mem_singleton.mp)
    obtain rfl | rfl := this
    · decide
    · decide
  have hbody : ∀ b ∈ join (lit "/") ((split (byte '/') p).foldl
      (cleanSegment (p.head? == some (byte '/'))) []).reverse, isControlByte b = false := by
    intro b hb
    obtain hb | ⟨seg, hseg, hb⟩ := mem_join hb
    · exact hlit b (.inl hb)
    · obtain hseg | hseg | rfl := mem_foldl_cleanSegment (mem_reverse.mp hseg)
      · exact h b (mem_split_subset hseg hb)
      · cases hseg
      · exact hlit b (.inr (.inr hb))
  intro b hb
  rw [pathClean_eq, renderPath] at hb
  split at hb
  · obtain rfl | hb := mem_cons.mp hb
    · decide
    · exact hbody b hb
  · split at hb
    · exact hlit b (.inr (.inl hb))
    · exact hbody b hb

theorem filter_plain (h : ∀ b ∈ p, isControlByte b = false) : p.filter (!isControlByte ·) = p :=
  filter_eq_self.mpr fun b hb => by rw [h b hb]; rfl

theorem normalizePath_cases (p : Str) : normalizePath p = lit "/" ∨ ∃ q,
    (∀ b ∈ q, isControlByte b = false) ∧ (normalizePath p = pathClean q ∨
      (pathClean q ≠ lit "/" ∧ normalizePath p = pathClean q ++ lit "/")) := by
  have hplain : ∀ b ∈ p.filter (!isControlByte ·), isControlByte b = false :=
    fun b hb => by simpa using (mem_filter.mp hb).2
  by_cases hnil : p.filter (!isControlByte ·) = []
  · exact .inl (by simp only [normalizePath, hnil, if_true])
  refine .inr ⟨p.filter (!isControlByte ·), hplain, ?_⟩
  simp only [normalizePath]
  rw [if_neg hnil]
  split
  case isTrue hclean => exact .inl hclean.symm
  case isFalse =>
    split
    case isTrue hslash => exact .inr ⟨hslash.2.2, rfl⟩
    case isFalse => exact .inl rfl

theorem normalizePath_file (hplain : ∀ b ∈ p, isControlByte b = false) (hne : p ≠ [])
    (hclean : pathClean p = p) : normalizePath p = p := by
  simp only [normalizePath, filter_plain hplain, hclean]
  exact if_neg hne

theorem normalizePath_dir (hplain : ∀ b ∈ p, isControlByte b = false) (hne : p ≠ [])
    (hroot : p ≠ lit "/") (hclean : pathClean (p ++ lit "/") = p) :
    normalizePath (p ++ lit "/") = p ++ lit "/" := by
  have hplain : ∀ b ∈ p ++ lit "/", isControlByte b = false := by
    intro b hb
    obtain hb | hb := mem_append.mp hb
    · exact hplain b hb
    · obtain rfl : b = byte '/' := mem_singleton.mp hb
      decide
  have hlonger : p ≠ p ++ lit "/" := by simp [lit]
  have hlen : 1 < (p ++ lit "/").length := by
    have hpos := length_pos_of_ne_nil hne
    have hone : (lit "/").length = 1 := by decide
    rw [length_append]
    omega
  have hend : (p ++ lit "/").getLast? = some (byte '/') := by
    rw [getLast?_append]
    rfl
  simp only [normalizePath, filter_plain hplain, hclean]
  rw [if_neg (append_ne_nil_of_left_ne_nil hne _), if_neg hlonger, if_pos ⟨hlen, hend, hroot⟩]

theorem normalizePath_normalizePath (p : Str) : normalizePath (normalizePath p) = normalizePath p := by
  obtain heq | ⟨q, hq, heq | ⟨hroot, heq⟩⟩ := normalizePath_cases p
  · rw [heq]
    decide
  · rw [heq]
    exact normalizePath_file (pathClean_plain hq) (pathClean_ne_nil q) (pathClean_pathClean q).1
  · rw [heq]
    exact normalizePath_dir (pathClean_plain hq) (pathClean_ne_nil q) hroot (pathClean_pathClean q).2

/-! ## Clean paths -/

/-- A segment that `path.Clean` keeps: no dots, no slash, and here no control byte. -/
structure CleanSegment (seg : Str) : Prop where
  ne_nil : seg ≠ []
  ne_dot : seg ≠ lit "."
  ne_dots : seg ≠ lit ".."
  no_slash : byte '/' ∉ seg
  plain : ∀ b ∈ seg, isControlByte b = false

inductive CleanPath : Str → Prop
  | file (segs : List Str) (h : ∀ seg ∈ segs, CleanSegment seg) :
    CleanPath (byte '/' :: join (lit "/") segs)
  | dir (segs : List Str) (hne : segs ≠ []) (h : ∀ seg ∈ segs, CleanSegment seg) :
    CleanPath (byte '/' :: join (lit "/") segs ++ lit "/")

theorem CleanedSegments.of_clean (h : ∀ seg ∈ out, CleanSegment seg) : CleanedSegments true out := by
  induction out with
  | nil => exact .nil true
  | cons seg out ih =>
    obtain ⟨hseg, hout⟩ := forall_mem_cons.mp h
    exact (ih hout).cons ⟨hseg.ne_nil, hseg.ne_dot⟩ (fun _ => hseg.ne_dots)
      (cleanSegment_push (not_or.mpr ⟨hseg.ne_nil, hseg.ne_dot⟩) hseg.ne_dots)

theorem pathClean_clean (h : ∀ seg ∈ segs, CleanSegment seg) :
    pathClean (byte '/' :: join (lit "/") segs) = byte '/' :: join (lit "/") segs ∧
    pathClean (byte '/' :: join (lit "/") segs ++ lit "/") = byte '/' :: join (lit "/") segs := by
  have hrev : ∀ seg ∈ segs.reverse, CleanSegment seg := fun seg hseg => h seg (mem_reverse.mp hseg)
  have hclean := pathClean_renderPath (.of_clean hrev) fun seg hseg => (hrev seg hseg).no_slash
  rwa [reverse_reverse] at hclean

theorem pathClean_rooted (hp : p.head? = some (byte '/'))
    (hplain : ∀ b ∈ p, isControlByte b = false) :
    ∃ segs, (∀ seg ∈ segs, CleanSegment seg) ∧
      pathClean p = byte '/' :: join (lit "/") segs := by
  have hcleaned := (CleanedSegments.nil true).foldl (split (byte '/') p)
  refine ⟨((split (byte '/') p).foldl (cleanSegment true) []).reverse, fun seg hseg => ?_, ?_⟩
  · have hseg := mem_reverse.mp hseg
    obtain ⟨hnil, hdot⟩ := hcleaned.kept seg hseg
    have hdots := hcleaned.below rfl seg hseg
    refine ⟨hnil, hdot, hdots, slash_not_mem_cleaned hseg, fun b hb => ?_⟩
    obtain hmem | hmem | hmem := mem_foldl_cleanSegment hseg
    · exact hplain b (mem_split_subset hmem hb)
    · cases hmem
    · exact absurd hmem hdots
  · simp only [pathClean, hp, beq_self_eq_true, if_true]

theorem plain_join (h : ∀ seg ∈ segs, CleanSegment seg) :
    ∀ b ∈ byte '/' :: join (lit "/") segs, isControlByte b = false := by
  intro b hb
  obtain rfl | hb := mem_cons.mp hb
  · decide
  · obtain hb | ⟨seg, hseg, hb⟩ := mem_join hb
    · obtain rfl : b = byte '/' := mem_singleton.mp hb
      decide
    · exact (h seg hseg).plain b hb

section

variable (hne : segs ≠ []) (h : ∀ seg ∈ segs, CleanSegment seg)

include hne h

theorem join_ne_nil : join (lit "/") segs ≠ [] := by
  obtain ⟨seg, segs, rfl⟩ := exists_cons_of_ne_nil hne
  obtain ⟨b, seg, rfl⟩ := exists_cons_of_ne_nil (h seg (by simp)).ne_nil
  cases segs <;> simp [join]

theorem rooted_join_ne_slash : byte '/' :: join (lit "/") segs ≠ lit "/" := by
  intro hc
  injection hc with _ hc
  exact join_ne_nil hne h hc

theorem not_hasSuffix_slash : hasSuffix (byte '/' :: join (lit "/") segs) (lit "/") = false := by
  by_contra hsuf
  rw [Bool.not_eq_false, hasSuffix, isSuffixOf_iff_suffix] at hsuf
  obtain ⟨q, hq⟩ := hsuf
  -- the last segment would be empty
  have hsplit := split_rooted hne fun seg hs => (h seg hs).no_slash
  have hlast : split (byte '/') (byte '/' :: join (lit "/") segs) =
      split (byte '/') q ++ [[]] := by
    rw [← hq]
    exact split_append_slash q []
  have hmem : ([] : Str) ∈ segs := by
    rw [hsplit] at hlast
    have hget := congrArg getLast? hlast
    rw [getLast?_append, getLast?_cons_of_ne_nil hne] at hget
    exact mem_of_getLast? hget
  exact (h [] hmem).ne_nil rfl

end

theorem normalizePath_clean (h : CleanPath p) : normalizePath p = p := by
  cases h with
  | file segs h => exact normalizePath_file (plain_join h) (cons_ne_nil _ _) (pathClean_clean h).1
  | dir segs hne h =>
    exact normalizePath_dir (plain_join h) (cons_ne_nil _ _) (rooted_join_ne_slash hne h)
      (pathClean_clean h).2

theorem cleanPath_normalizePath (hp : p.head? = some (byte '/')) : CleanPath (normalizePath p) := by
  obtain ⟨q, rfl⟩ := head?_eq_some_iff.mp hp
  have hfilter : (byte '/' :: q).filter (!isControlByte ·) =
      byte '/' :: q.filter (!isControlByte ·) := filter_cons_of_pos (by decide)
  have hplain : ∀ b ∈ byte '/' :: q.filter (!isControlByte ·), isControlByte b = false := by
    intro b hb
    rw [← hfilter] at hb
    simpa using (mem_filter.mp hb).2
  obtain ⟨segs, hsegs, hclean⟩ := pathClean_rooted (p := byte '/' :: q.filter (!isControlByte ·))
    rfl hplain
  simp only [normalizePath, hfilter]
  rw [if_neg (cons_ne_nil _ _)]
  split
  case isTrue heq =>
    rw [← heq, hclean]
    exact .file segs hsegs
  case isFalse =>
    rw [hclean]
    split
    case isTrue hslash =>
      refine .dir segs ?_ hsegs
      rintro rfl
      exact hslash.2.2 rfl
    case isFalse => exact .file segs hsegs

/-! ## What cleaning leaves out -/

theorem cleanSegment_sublist (out : List Str) (seg : Str) :
    (cleanSegment true out seg).reverse.Sublist (out.reverse ++ [seg]) := by
  have hpush : (seg :: out).reverse.Sublist (out.reverse ++ [seg]) := by
    rw [reverse_cons]
  have hkeep : out.reverse.Sublist (out.reverse ++ [seg]) := sublist_append_left _ _
  unfold cleanSegment
  split
  case isTrue => exact hkeep
  case isFalse =>
    split
    case isFalse => exact hpush
    case isTrue hdots =>
      cases out with
      | nil => exact nil_sublist _
      | cons top rest =>
        dsimp only
        split
        case isTrue => rwa [← hdots]
        case isFalse =>
          rw [reverse_cons] at hkeep ⊢
          exact (sublist_append_left _ _).trans hkeep

theorem foldl_cleanSegment_sublist (segs out : List Str) :
    (segs.foldl (cleanSegment true) out).reverse.Sublist (out.reverse ++ segs) := by
  induction segs generalizing out with
  | nil => rw [append_nil]; exact List.Sublist.refl _
  | cons seg segs ih =>
    have hstep := (cleanSegment_sublist out seg).append_right segs
    rw [append_assoc] at hstep
    exact (ih _).trans hstep

theorem join_sublist {sep : Str} {xs ys : List Str} (h : xs.Sublist ys) :
    (join sep xs).Sublist (join sep ys) := by
  have hcons (y : Str) {ys : List Str} (hne : ys ≠ []) :
      join sep (y :: ys) = y ++ (sep ++ join sep ys) := by
    obtain ⟨z, zs, rfl⟩ := exists_cons_of_ne_nil hne
    rw [join, intercalate_cons_cons, append_assoc, join]
  have hone (y : Str) : join sep [y] = y := intercalate_singleton
  induction h with
  | slnil => exact List.Sublist.refl _
  | @cons xs ys y h ih =>
    by_cases hne : ys = []
    · subst hne
      obtain rfl := sublist_nil.mp h
      exact nil_sublist _
    · rw [hcons y hne, ← append_assoc]
      exact ih.trans (sublist_append_right _ _)
  | @cons_cons xs ys y h ih =>
    by_cases hne : xs = []
    · subst hne
      by_cases hne : ys = []
      · rw [hne]
      · rw [hone, hcons y hne]
        exact sublist_append_left _ _
    · have hne' : ys ≠ [] := by
        rintro rfl
        exact hne (sublist_nil.mp h)
      rw [hcons y hne, hcons y hne']
      exact (ih.append_left sep).append_left y

theorem pathClean_sublist (hp : p.head? = some (byte '/')) : (pathClean p).Sublist p := by
  obtain ⟨q, rfl⟩ := head?_eq_some_iff.mp hp
  have hq : join (lit "/") (split (byte '/') q) = q :=
    intercalate_splitOn (byte '/')
  have hsub := @join_sublist (lit "/") _ _
    (foldl_cleanSegment_sublist (split (byte '/') q) [])
  rw [reverse_nil, nil_append, hq] at hsub
  exact hsub.cons_cons _

theorem count_normalizePath_le (hp : p.head? = some (byte '/')) {b : UInt8} (hb : b ≠ byte '/') :
    (normalizePath p).count b ≤ p.count b := by
  have hcount : (p.filter (!isControlByte ·)).count b ≤ p.count b :=
    filter_sublist.count_le b
  have hroot : (p.filter (!isControlByte ·)).head? = some (byte '/') := by
    obtain ⟨q, rfl⟩ := head?_eq_some_iff.mp hp
    rfl
  have hclean := (pathClean_sublist hroot).count_le b
  have hslash : (lit "/").count b = 0 := by
    refine count_eq_zero.mpr fun hmem => hb ?_
    exact mem_singleton.mp hmem
  simp only [normalizePath]
  generalize p.filter (!isControlByte ·) = q at hcount hroot hclean ⊢
  have hne : q ≠ [] := by
    rintro rfl
    cases hroot
  rw [if_neg hne]
  split
  case isTrue => exact hcount
  case isFalse =>
    split
    case isTrue =>
      rw [count_append]
      omega
    case isFalse => omega

theorem urlFor_clean (h : CleanPath p) : urlFor [] p = some p := by
  have hjoined {q : Str} : ([] : Str) ++ lit "/" ++
      (if hasPrefix (byte '/' :: q) (lit "/") then (byte '/' :: q).drop 1
        else byte '/' :: q) = byte '/' :: q := by
    rfl
  have hchild {q : Str} : hasPrefix (byte '/' :: q) (([] : Str) ++ lit "/") = true := by
    simp [hasPrefix, lit_slash]
  have hbase : (if hasSuffix [] (lit "/") then ([] : Str).dropLast else []) = [] := by decide
  cases h with
  | file segs h =>
    have hend : ¬ (hasSuffix (byte '/' :: join (lit "/") segs) (lit "/") = true ∧
        byte '/' :: join (lit "/") segs ≠ lit "/") := by
      rintro ⟨hsuf, hroot⟩
      by_cases hne : segs = []
      · subst hne
        exact hroot rfl
      · rw [not_hasSuffix_slash hne h] at hsuf
        cases hsuf
    simp only [urlFor, hbase, hjoined, (pathClean_clean h).1]
    rw [if_neg hend, if_pos (.inr (.inr hchild))]
  | dir segs hne h =>
    have hend : hasSuffix (byte '/' :: (join (lit "/") segs ++ lit "/")) (lit "/") =
        true := by
      rw [hasSuffix, isSuffixOf_iff_suffix]
      exact ⟨byte '/' :: join (lit "/") segs, rfl⟩
    have hclean := (pathClean_clean h).2
    rw [cons_append] at hclean ⊢
    have hkept : hasSuffix (byte '/' :: (join (lit "/") segs ++ lit "/")) (lit "/") = true ∧
        byte '/' :: join (lit "/") segs ≠ lit "/" := ⟨hend, rooted_join_ne_slash hne h⟩
    simp only [urlFor, hbase, hjoined, hclean]
    rw [if_pos hkept, cons_append, if_pos (.inr (.inr hchild))]

end Cadish
