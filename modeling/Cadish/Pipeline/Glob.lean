import Cadish.Pipeline.Vocabulary

/-!
# Path globs

In the patterns of a `path` matcher `*` stands for any run of characters. A pattern without `*` is
looked up, one with a single `*` at its end is a prefix in a byte trie, and the others are cut at
their stars into parts that are searched for in order. **The set accepts what one of its patterns
accepts** (`PathSet.matches_iff`).
-/

namespace Cadish

open List Str

variable {pat s last : Str} {parts mids : List Str}

def star : UInt8 := byte '*'

/-- What a pattern accepts. -/
def Wild : Str → Str → Prop
  | [], path => path = []
  | b :: pat, path =>
    if b = star then ∃ run rest, path = run ++ rest ∧ Wild pat rest
    else ∃ rest, path = b :: rest ∧ Wild pat rest

theorem wild_literal (h : star ∉ pat) (path : Str) : Wild pat path ↔ path = pat := by
  induction pat generalizing path with
  | nil => exact Iff.rfl
  | cons b pat ih =>
    rw [mem_cons, not_or] at h
    rw [Wild, if_neg (Ne.symm h.1)]
    simp only [ih h.2]
    constructor
    · rintro ⟨rest, rfl, rfl⟩
      rfl
    · rintro rfl
      exact ⟨pat, rfl, rfl⟩

theorem wild_append {lead : Str} (h : star ∉ lead) (pat path : Str) :
    Wild (lead ++ pat) path ↔ ∃ rest, path = lead ++ rest ∧ Wild pat rest := by
  induction lead generalizing path with
  | nil => simp
  | cons b lead ih =>
    rw [mem_cons, not_or] at h
    rw [cons_append, Wild, if_neg (Ne.symm h.1)]
    simp only [ih h.2]
    constructor
    · rintro ⟨_, rfl, rest, rfl, hrest⟩
      exact ⟨rest, rfl, hrest⟩
    · rintro ⟨rest, rfl, hrest⟩
      exact ⟨lead ++ rest, rfl, rest, rfl, hrest⟩

theorem wild_self (pat : Str) : Wild pat pat := by
  induction pat with
  | nil => rfl
  | cons b pat ih =>
    rw [Wild]
    split
    · exact ⟨[b], pat, rfl, ih⟩
    · exact ⟨pat, rfl, ih⟩

theorem wild_star (path : Str) : Wild [star] path := by
  exact ⟨path, [], (append_nil path).symm, rfl⟩

theorem wild_prefix {lead : Str} (h : star ∉ lead) (path : Str) :
    Wild (lead ++ [star]) path ↔ lead <+: path := by
  rw [wild_append h]
  constructor
  · rintro ⟨rest, rfl, -⟩
    exact prefix_append _ _
  · rintro ⟨rest, rfl⟩
    exact ⟨rest, rfl, wild_star rest⟩

theorem wild_filter (pat : Str) : Wild pat (pat.filter fun b => b ≠ star) := by
  induction pat with
  | nil => rfl
  | cons b pat ih =>
    by_cases hb : b = star
    · rw [Wild, if_pos hb, filter_cons_of_neg (by simp [hb])]
      exact ⟨[], _, rfl, ih⟩
    · rw [Wild, if_neg hb, filter_cons_of_pos (by simp [hb])]
      exact ⟨_, rfl, ih⟩

/-! ## Prefixes -/

inductive TrieNode where
  | node (terminal : Bool) (children : UInt8 → Option TrieNode)

namespace TrieNode

def terminal : TrieNode → Bool
  | .node t _ => t

def child : TrieNode → UInt8 → Option TrieNode
  | .node _ c => c

def new : TrieNode := .node false fun _ => none

def insert (t : TrieNode) : Str → TrieNode
  | [] => .node true t.child
  | b :: pre =>
    .node t.terminal (Function.update t.child b (some (((t.child b).getD new).insert pre)))

def hasPrefixOf (t : TrieNode) (s : Str) : Bool :=
  if t.terminal then true
  else
    match s with
    | [] => false
    | b :: s =>
      match t.child b with
      | none => false
      | some next => next.hasPrefixOf s

@[simp] theorem terminal_node (t : Bool) (c : UInt8 → Option TrieNode) : (node t c).terminal = t := rfl

@[simp] theorem child_node (t : Bool) (c : UInt8 → Option TrieNode) : (node t c).child = c := rfl

theorem hasPrefixOf_nil (t : TrieNode) : t.hasPrefixOf [] = t.terminal := by
  cases t with
  | node t c => cases t <;> rfl

theorem hasPrefixOf_cons (t : TrieNode) (b : UInt8) (s : Str) :
    t.hasPrefixOf (b :: s) = (t.terminal || (t.child b).any (·.hasPrefixOf s)) := by
  cases t with
  | node t c =>
    cases t
    · rw [hasPrefixOf, child_node]
      cases c b <;> rfl
    · rfl

theorem hasPrefixOf_new (s : Str) : new.hasPrefixOf s = false := by
  cases s <;> rfl

theorem hasPrefixOf_insert (t : TrieNode) (pre s : Str) :
    (t.insert pre).hasPrefixOf s = (pre.isPrefixOf s || t.hasPrefixOf s) := by
  induction pre generalizing t s with
  | nil =>
    rw [insert, isPrefixOf_nil_left, Bool.true_or]
    cases s with
    | nil => rfl
    | cons c s => rw [hasPrefixOf_cons, terminal_node, Bool.true_or]
  | cons b pre ih =>
    rw [insert]
    cases s with
    | nil => rfl
    | cons c s =>
      rw [hasPrefixOf_cons, hasPrefixOf_cons, terminal_node, child_node]
      by_cases hc : c = b
      · subst hc
        have hchild : (((t.child c).getD new).hasPrefixOf s) =
            (t.child c).any (·.hasPrefixOf s) := by
          cases t.child c with
          | none => exact hasPrefixOf_new s
          | some next => rfl
        rw [Function.update_self, Option.any_some, ih, hchild, isPrefixOf_cons_cons_self]
        exact Bool.or_left_comm _ _ _
      · have hne : (b :: pre).isPrefixOf (c :: s) = false := by
          simp [isPrefixOf, Ne.symm hc]
        rw [Function.update_of_ne hc, hne, Bool.false_or]

end TrieNode

/-! ## Parts in order -/

theorem cutString_eq_some {sep u v : Str} (h : cutString sep s = some (u, v)) :
    s = u ++ (sep ++ v) ∧ ∀ u' v', s = u' ++ (sep ++ v') → v' <:+ v := by
  induction s generalizing u with
  | nil =>
    obtain ⟨rfl, h⟩ := Option.ite_none_right_eq_some.mp h
    obtain ⟨rfl, rfl⟩ := Prod.mk.inj (Option.some.inj h)
    refine ⟨rfl, fun u' v' hs => ?_⟩
    obtain ⟨-, hnil⟩ := append_eq_nil_iff.mp hs.symm
    obtain rfl : v' = [] := hnil
    exact suffix_rfl
  | cons b s ih =>
    rw [cutString] at h
    by_cases hprefix : hasPrefix (b :: s) sep = true
    · rw [if_pos hprefix] at h
      obtain ⟨rfl, rfl⟩ := Prod.mk.inj (Option.some.inj h)
      obtain ⟨t, ht⟩ := isPrefixOf_iff_prefix.mp hprefix
      rw [← ht, drop_left]
      refine ⟨rfl, fun u' v' hs => ?_⟩
      -- every occurrence ends at or behind the end of the first
      have hlen := congrArg length hs
      simp only [length_append] at hlen
      have hend : v' <:+ sep ++ t := ⟨u' ++ sep, by rw [hs, append_assoc]⟩
      exact suffix_of_suffix_length_le hend (suffix_append _ _) (by omega)
    · rw [if_neg hprefix] at h
      obtain ⟨⟨u₁, v₁⟩, hcut, h⟩ := Option.map_eq_some_iff.mp h
      obtain ⟨rfl, rfl⟩ := Prod.mk.inj h
      obtain ⟨rfl, hlongest⟩ := ih hcut
      refine ⟨rfl, fun u' v' hs => ?_⟩
      cases u' with
      | nil =>
        refine absurd ( isPrefixOf_iff_prefix.mpr ⟨v', ?_⟩) hprefix
        exact hs.symm
      | cons c u' => exact hlongest u' v' (cons.inj hs).2

theorem cutString_eq_none {sep : Str} (h : cutString sep s = none) (u v : Str) :
    s ≠ u ++ (sep ++ v) := by
  induction s generalizing u with
  | nil =>
    rw [cutString] at h
    intro hs
    have hnil := (append_eq_nil_iff.mp (append_eq_nil_iff.mp hs.symm).2).1
    rw [if_pos hnil] at h
    cases h
  | cons b s ih =>
    rw [cutString] at h
    by_cases hprefix : hasPrefix (b :: s) sep = true
    · rw [if_pos hprefix] at h
      cases h
    rw [if_neg hprefix] at h
    intro hs
    cases u with
    | nil => exact hprefix ( isPrefixOf_iff_prefix.mpr ⟨v, hs.symm⟩)
    | cons c u => exact ih (Option.map_eq_none_iff.mp h) u (cons.inj hs).2

/-- `t` is left of `s` behind the parts, which occur in this order. -/
def Rests : List Str → Str → Str → Prop
  | [], s, t => t = s
  | part :: parts, s, t => ∃ u v, s = u ++ (part ++ v) ∧ Rests parts v t

/-- The loop of `glob.match`: what is left behind the first occurrences of the parts. -/
def findParts : List Str → Str → Option Str
  | [], s => some s
  | part :: parts, s => (cutString part s).bind fun r => findParts parts r.2

theorem Rests.of_suffix {s' t : Str} (hs : s' <:+ s) (h : Rests parts s' t) :
    ∃ t', Rests parts s t' ∧ t <:+ t' := by
  obtain ⟨w, rfl⟩ := hs
  cases parts with
  | nil =>
    obtain rfl : t = s' := h
    exact ⟨_, rfl, suffix_append _ _⟩
  | cons part parts =>
    obtain ⟨u, v, rfl, h⟩ := h
    exact ⟨t, ⟨w ++ u, v, (append_assoc _ _ _).symm, h⟩, suffix_rfl⟩

theorem findParts_eq_some {r : Str} (h : findParts parts s = some r) :
    Rests parts s r ∧ ∀ t, Rests parts s t → t <:+ r := by
  induction parts generalizing s with
  | nil =>
    obtain rfl := Option.some.inj h
    refine ⟨rfl, fun t ht => ?_⟩
    obtain rfl : t = s := ht
    exact suffix_rfl
  | cons part parts ih =>
    obtain ⟨⟨u, v⟩, hcut, hrest⟩ := Option.bind_eq_some_iff.mp h
    obtain ⟨rfl, hlongest⟩ := cutString_eq_some hcut
    obtain ⟨hrests, hmax⟩ := ih hrest
    refine ⟨⟨u, v, rfl, hrests⟩, ?_⟩
    rintro t ⟨u', v', hs, ht⟩
    obtain ⟨t', ht', hsuffix⟩ := ht.of_suffix (hlongest u' v' hs)
    exact hsuffix.trans (hmax t' ht')

theorem findParts_eq_none (h : findParts parts s = none) : ∀ t, ¬ Rests parts s t := by
  induction parts generalizing s with
  | nil => cases h
  | cons part parts ih =>
    rintro t ⟨u', v', hs, ht⟩
    rw [findParts] at h
    cases hcut : cutString part s with
    | none => exact cutString_eq_none hcut u' v' hs
    | some r =>
      rw [hcut] at h
      obtain ⟨t', ht', -⟩ := ht.of_suffix ((cutString_eq_some hcut).2 u' v' hs)
      exact ih h t' ht'

/-! ## Patterns cut at their stars -/

/-- What the segments of a pattern accept, with a star between each two. -/
def Fills : List Str → Str → Prop
  | [], _ => False
  | [seg], s => s = seg
  | seg :: segs, s => ∃ run rest, s = seg ++ (run ++ rest) ∧ Fills segs rest

theorem split_cons_star (pat : Str) : split star (star :: pat) = [] :: split star pat := by
  simp [split, splitOn, splitOnP_cons_eq_if_modifyHead]

theorem split_cons_of_ne {b : UInt8} (hb : b ≠ star) (pat : Str) :
    split star (b :: pat) = (split star pat).modifyHead (b :: ·) := by
  simp [split, splitOn, splitOnP_cons_eq_if_modifyHead, hb]

theorem split_ne_nil (pat : Str) : split star pat ≠ [] := splitOnP_ne_nil _ _

theorem wild_iff_fills (pat path : Str) : Wild pat path ↔ Fills (split star pat) path := by
  induction pat generalizing path with
  | nil => exact Iff.rfl
  | cons b pat ih =>
    obtain ⟨seg, segs, hsegs⟩ := exists_cons_of_ne_nil (split_ne_nil pat)
    rw [Wild]
    by_cases hb : b = star
    · rw [if_pos hb, hb, split_cons_star]
      simp only [ih, hsegs, Fills, nil_append]
    rw [if_neg hb, split_cons_of_ne hb]
    simp only [ih, hsegs]
    cases segs with
    | nil =>
      constructor
      · rintro ⟨rest, rfl, rfl⟩
        rfl
      · rintro rfl
        exact ⟨seg, rfl, rfl⟩
    | cons seg' segs =>
      constructor
      · rintro ⟨_, rfl, run, rest, rfl, hrest⟩
        exact ⟨run, rest, rfl, hrest⟩
      · rintro ⟨run, rest, rfl, hrest⟩
        exact ⟨_, rfl, run, rest, rfl, hrest⟩

theorem fills_iff {seg : Str} :
    Fills (seg :: (mids ++ [last])) s ↔
      ∃ rest, s = seg ++ rest ∧ ∃ t, Rests mids rest t ∧ last <:+ t := by
  induction mids generalizing seg s with
  | nil =>
    constructor
    · rintro ⟨run, _, rfl, rfl⟩
      exact ⟨_, rfl, _, rfl, suffix_append _ _⟩
    · rintro ⟨_, rfl, _, rfl, run, rfl⟩
      exact ⟨run, last, rfl, rfl⟩
  | cons mid mids ih =>
    have hfills : Fills (seg :: (mid :: mids ++ [last])) s ↔
        ∃ run rest, s = seg ++ (run ++ rest) ∧ Fills (mid :: (mids ++ [last])) rest := by
      rfl
    rw [hfills]
    simp only [ih]
    constructor
    · rintro ⟨run, _, rfl, rest, rfl, t, ht, hlast⟩
      exact ⟨_, rfl, t, ⟨run, rest, rfl, ht⟩, hlast⟩
    · rintro ⟨_, rfl, t, ⟨run, rest, rfl, ht⟩, hlast⟩
      exact ⟨run, _, rfl, rest, rfl, t, ht, hlast⟩

theorem rests_filter :
    (∃ t, Rests (mids.filter fun m => m ≠ []) s t ∧ last <:+ t) ↔
      ∃ t, Rests mids s t ∧ last <:+ t := by
  induction mids generalizing s with
  | nil => exact Iff.rfl
  | cons mid mids ih =>
    by_cases hmid : mid = []
    · rw [filter_cons_of_neg (by simp [hmid]), ih, hmid]
      constructor
      · rintro ⟨t, ht, hlast⟩
        exact ⟨t, ⟨[], s, rfl, ht⟩, hlast⟩
      · rintro ⟨t, ⟨u, v, rfl, ht⟩, hlast⟩
        obtain ⟨t', ht', hsuffix⟩ := ht.of_suffix (suffix_append u v)
        exact ⟨t', ht', hlast.trans hsuffix⟩
    · rw [filter_cons_of_pos (by simp [hmid])]
      constructor
      · rintro ⟨t, ⟨u, v, rfl, ht⟩, hlast⟩
        obtain ⟨t', ht', hlast'⟩ := ih.mp ⟨t, ht, hlast⟩
        exact ⟨t', ⟨u, v, rfl, ht'⟩, hlast'⟩
      · rintro ⟨t, ⟨u, v, rfl, ht⟩, hlast⟩
        obtain ⟨t', ht', hlast'⟩ := ih.mpr ⟨t, ht, hlast⟩
        exact ⟨t', ⟨u, v, rfl, ht'⟩, hlast'⟩

theorem split_of_not_mem (h : star ∉ pat) : split star pat = [pat] := by
  induction pat with
  | nil => rfl
  | cons b pat ih =>
    rw [mem_cons, not_or] at h
    rw [split_cons_of_ne (Ne.symm h.1), ih h.2]
    rfl

theorem split_of_mem (h : star ∈ pat) :
    ∃ seg mids last, split star pat = seg :: (mids ++ [last]) ∧
      (pat.head? = some star ↔ seg = []) ∧ (pat.getLast? = some star ↔ last = []) := by
  induction pat with
  | nil => cases h
  | cons b pat ih =>
    by_cases hmem : star ∈ pat
    · obtain ⟨seg, mids, last, hsplit, -, hlast⟩ := ih hmem
      rw [getLast?_cons_of_ne_nil (ne_nil_of_mem hmem)]
      by_cases hb : b = star
      · refine ⟨[], seg :: mids, last, ?_, by simp [hb], hlast⟩
        rw [hb, split_cons_star, hsplit]
        rfl
      · refine ⟨b :: seg, mids, last, ?_, by simp [hb], hlast⟩
        rw [split_cons_of_ne hb, hsplit]
        rfl
    · obtain rfl : star = b := (mem_cons.mp h).resolve_right hmem
      refine ⟨[], [], pat, ?_, by simp, ?_⟩
      · rw [split_cons_star, split_of_not_mem hmem]
        rfl
      · rw [getLast?_cons]
        cases hpat : pat.getLast? with
        | none => simp [getLast?_eq_none_iff.mp hpat]
        | some c =>
          have hc := mem_of_getLast? hpat
          constructor
          · rintro ⟨⟩
            exact absurd hc hmem
          · rintro rfl
            cases hc

structure Glob where
  leadingStar : Bool
  trailingStar : Bool
  parts : List Str

def compileGlob (pat : Str) : Glob where
  leadingStar := hasPrefix pat [star]
  trailingStar := hasSuffix pat [star]
  parts := (split star pat).filter fun p => p ≠ []

/-- `glob.match` behind the first part: the last one ends the text, unless a star does. -/
def Glob.matchesRest (g : Glob) (parts : List Str) (s : Str) : Bool :=
  let anchored := !g.trailingStar && parts ≠ []
  match findParts (if anchored then parts.dropLast else parts) s with
  | none => false
  | some t => if anchored then hasSuffix t (parts.getLastD []) else true

def Glob.matches (g : Glob) (s : Str) : Bool :=
  match g.parts with
  | [] => true
  | first :: parts =>
    if g.leadingStar then g.matchesRest (first :: parts) s
    else if hasPrefix s first then g.matchesRest parts (s.drop first.length)
    else false

theorem findParts_iff :
    (match findParts parts s with
      | none => false
      | some t => hasSuffix t last) = true ↔ ∃ t, Rests parts s t ∧ last <:+ t := by
  cases hfind : findParts parts s with
  | none =>
    simp only [Bool.false_eq_true, false_iff]
    rintro ⟨t, ht, -⟩
    exact findParts_eq_none hfind t ht
  | some r =>
    obtain ⟨hrests, hmax⟩ := findParts_eq_some hfind
    simp only [hasSuffix, isSuffixOf_iff_suffix]
    constructor
    · exact fun hlast => ⟨r, hrests, hlast⟩
    · rintro ⟨t, ht, hlast⟩
      exact hlast.trans (hmax t ht)

theorem Glob.matchesRest_iff {g : Glob} (htrailing : g.trailingStar = true ↔ last = []) :
    g.matchesRest ((mids ++ [last]).filter fun p => p ≠ []) s = true ↔
      ∃ t, Rests mids s t ∧ last <:+ t := by
  rw [← rests_filter, ← findParts_iff, filter_append]
  by_cases hlast : last = []
  · have hends (t : Str) : hasSuffix t [] = true := isSuffixOf_iff_suffix.mpr nil_suffix
    rw [matchesRest, htrailing.mpr hlast, hlast]
    simp [hends]
  · have htrailing : g.trailingStar = false := Bool.eq_false_iff.mpr fun h => hlast (htrailing.mp h)
    rw [matchesRest, htrailing, filter_cons_of_pos (by simp [hlast])]
    simp

theorem compileGlob_matches (h : star ∈ pat) (s : Str) :
    (compileGlob pat).matches s = true ↔ Wild pat s := by
  obtain ⟨seg, mids, last, hsplit, hhead, hlast⟩ := split_of_mem h
  have hleading : (compileGlob pat).leadingStar = true ↔ seg = [] := by
    rw [← hhead, compileGlob, hasPrefix, isPrefixOf_iff_prefix, head?_eq_some_iff]
    exact exists_congr fun _ => eq_comm
  have htrailing : (compileGlob pat).trailingStar = true ↔ last = [] := by
    rw [← hlast, compileGlob, hasSuffix, isSuffixOf_iff_suffix, getLast?_eq_some_iff]
    exact exists_congr fun _ => eq_comm
  rw [wild_iff_fills, hsplit, fills_iff]
  by_cases hseg : seg = []
  · have hparts : (compileGlob pat).parts = (mids ++ [last]).filter fun p => p ≠ [] := by
      rw [compileGlob, hsplit, filter_cons_of_neg (by simp [hseg])]
    have hmatches : (compileGlob pat).matches s =
        (compileGlob pat).matchesRest ((mids ++ [last]).filter fun p => p ≠ []) s := by
      rw [Glob.matches, hparts, hleading.mpr hseg]
      cases (mids ++ [last]).filter fun p => p ≠ [] with
      | nil => simp [Glob.matchesRest, findParts]
      | cons first parts => rfl
    rw [hmatches, Glob.matchesRest_iff htrailing, hseg]
    simp
  · have hparts : (compileGlob pat).parts = seg :: (mids ++ [last]).filter fun p => p ≠ [] := by
      rw [compileGlob, hsplit, filter_cons_of_pos (by simp [hseg])]
    rw [Glob.matches, hparts]
    dsimp only
    rw [if_neg fun h => hseg (hleading.mp h)]
    by_cases hprefix : hasPrefix s seg = true
    · obtain ⟨rest, rfl⟩ := isPrefixOf_iff_prefix.mp hprefix
      rw [if_pos hprefix, Glob.matchesRest_iff htrailing]
      simp
    · rw [if_neg hprefix]
      simp only [Bool.false_eq_true, false_iff]
      rintro ⟨rest, rfl, -⟩
      exact hprefix ( isPrefixOf_iff_prefix.mpr (prefix_append _ _))

/-! ## Sets of patterns -/

theorem foldl_add_iff {σ : Type} {add : σ → Str → σ} (accepts : σ → Prop)
    (hadd : ∀ set pat, accepts (add set pat) ↔ Wild pat s ∨ accepts set) (pats : List Str) (set : σ) :
    accepts (pats.foldl add set) ↔ (∃ pat ∈ pats, Wild pat s) ∨ accepts set := by
  induction pats generalizing set with
  | nil => simp
  | cons pat pats ih =>
    rw [foldl_cons, ih, hadd]
    simp [or_assoc, or_left_comm]

structure PathSet where
  exact : List Str := []
  prefixes : TrieNode := .new
  globs : List Glob := []
  matchAll : Bool := false

namespace PathSet

def add (s : PathSet) (pat : Str) : PathSet :=
  if pat = [star] then { s with matchAll := true }
  else if star ∉ pat then { s with exact := pat :: s.exact }
  else if pat.count star = 1 ∧ hasSuffix pat [star] then
    { s with prefixes := s.prefixes.insert pat.dropLast }
  else { s with globs := s.globs ++ [compileGlob pat] }

def «matches» (s : PathSet) (path : Str) : Bool :=
  s.matchAll || s.exact.elem path || s.prefixes.hasPrefixOf path || s.globs.any (·.matches path)

def ofPatterns (pats : List Str) : PathSet := pats.foldl add {}

theorem matches_add (s : PathSet) (pat path : Str) :
    (s.add pat).matches path = true ↔ Wild pat path ∨ s.matches path = true := by
  rw [add]
  by_cases hstar : pat = [star]
  · rw [hstar]
    simp [«matches», wild_star]
  rw [if_neg hstar]
  by_cases hmem : star ∉ pat
  · rw [if_pos hmem, wild_literal hmem]
    simp [«matches», or_assoc, or_left_comm]
  rw [if_neg hmem]
  by_cases hprefix : pat.count star = 1 ∧ hasSuffix pat [star]
  · obtain ⟨lead, rfl⟩ := isSuffixOf_iff_suffix.mp hprefix.2
    have hlead : star ∉ lead := by
      rw [count_append, count_singleton_self] at hprefix
      exact count_eq_zero.mp (by omega)
    rw [if_pos hprefix, wild_prefix hlead]
    simp [«matches», TrieNode.hasPrefixOf_insert, or_assoc, or_left_comm]
  · rw [if_neg hprefix, ← compileGlob_matches (not_not.mp hmem)]
    simp [«matches», or_comm, or_left_comm]

theorem matches_iff (pats : List Str) (path : Str) :
    (ofPatterns pats).matches path = true ↔ ∃ pat ∈ pats, Wild pat path := by
  refine (foldl_add_iff (·.matches path = true) (matches_add · · path) pats {}).trans ?_
  simp [«matches», TrieNode.hasPrefixOf_new]

end PathSet

/-- The patterns for the names of parameters: there are no prefixes here. -/
structure NameGlobSet where
  exact : List Str := []
  globs : List Glob := []
  matchAll : Bool := false

namespace NameGlobSet

def add (s : NameGlobSet) (n : Str) : NameGlobSet :=
  if n = [star] then { s with matchAll := true }
  else if star ∉ n then { s with exact := n :: s.exact }
  else { s with globs := s.globs ++ [compileGlob n] }

def newNameGlobSet (names : List Str) : NameGlobSet := names.foldl add {}

def «match» (s : NameGlobSet) (name : Str) : Bool :=
  s.matchAll || s.exact.elem name || s.globs.any (·.matches name)

theorem match_add (s : NameGlobSet) (n name : Str) :
    (s.add n).match name = true ↔ Wild n name ∨ s.match name = true := by
  rw [add]
  by_cases hstar : n = [star]
  · rw [hstar]
    simp [«match», wild_star]
  rw [if_neg hstar]
  by_cases hmem : star ∉ n
  · rw [if_pos hmem, wild_literal hmem]
    simp [«match», or_assoc, or_left_comm]
  · rw [if_neg hmem, ← compileGlob_matches (not_not.mp hmem)]
    simp [«match», or_comm, or_left_comm]

end NameGlobSet

/-- **A set accepts what one of its patterns accepts**, in whatever order they were added and
wherever each was put. -/
theorem patterns_wild (pats : List Str) (s : Str) :
    ((PathSet.ofPatterns pats).matches s = true ↔ ∃ pat ∈ pats, Wild pat s) ∧
      ((NameGlobSet.newNameGlobSet pats).match s = true ↔ ∃ pat ∈ pats, Wild pat s) := by
  refine ⟨PathSet.matches_iff pats s, ?_⟩
  refine (foldl_add_iff (·.match s = true) (NameGlobSet.match_add · · s) pats {}).trans ?_
  simp [NameGlobSet.match]

end Cadish
