import Mathlib.Data.List.Basic

/-!
# Trees that can be read back

A tree is written with four marks: before the head of a node, before each of its words, and around
its subtrees. **If no word has a mark in it, the trees can be read off the text**
(`texts_injective`).
-/

namespace Brackets

universe u

variable {α : Type u}

structure Marks (α : Type u) where
  head : α
  word : α
  opens : α
  closes : α
  distinct : [head, word, opens, closes].Nodup

/-- A tree whose nodes are words, with or without a block of subtrees. -/
inductive Tree (α : Type u) where
  | leaf (head : List α) (words : List (List α))
  | branch (head : List α) (words : List (List α)) (block : List (Tree α))

namespace Marks

variable (m : Marks α)

def IsMark (a : α) : Prop := a ∈ [m.head, m.word, m.opens, m.closes]

def Plain (w : List α) : Prop := ∀ a ∈ w, ¬ m.IsMark a

def GoesOn (marks : List α) (s : List α) : Prop := ∀ a ∈ s.head?, a ∈ marks

variable {m}

theorem goesOn_mono {marks marks' s : List α} (h : marks ⊆ marks') (hs : GoesOn marks s) :
    GoesOn marks' s := fun a ha => h (hs a ha)

theorem word_inj {w w' s s' : List α} (hw : m.Plain w) (hw' : m.Plain w')
    (hs : GoesOn [m.head, m.word, m.opens, m.closes] s)
    (hs' : GoesOn [m.head, m.word, m.opens, m.closes] s') (h : w ++ s = w' ++ s') :
    w = w' ∧ s = s' := by
  induction w generalizing w' with
  | nil =>
    cases w' with
    | nil => exact ⟨rfl, h⟩
    | cons b w' =>
      have hs : m.IsMark b := hs b (by rw [show s = b :: (w' ++ s') from h]; rfl)
      exact absurd hs (hw' b List.mem_cons_self)
  | cons a w ih =>
    cases w' with
    | nil =>
      have hs' : m.IsMark a := hs' a (by rw [show s' = a :: (w ++ s) from h.symm]; rfl)
      exact absurd hs' (hw a List.mem_cons_self)
    | cons b w' =>
      obtain ⟨rfl, htail⟩ := List.cons.inj h
      obtain ⟨rfl, rfl⟩ := ih (fun c hc => hw c (List.mem_cons_of_mem _ hc))
        (fun c hc => hw' c (List.mem_cons_of_mem _ hc)) htail
      exact ⟨rfl, rfl⟩

variable (m) in
def wordsText (ws : List (List α)) : List α := ws.flatMap fun w => m.word :: w

theorem goesOn_wordsText {ws : List (List α)} {s : List α} (hs : GoesOn [m.head, m.opens, m.closes] s) :
    GoesOn [m.head, m.word, m.opens, m.closes] (m.wordsText ws ++ s) := by
  cases ws with
  | nil => exact goesOn_mono (by simp) hs
  | cons w ws =>
    intro a ha
    obtain rfl : m.word = a := Option.some.inj ha
    simp

theorem words_inj {ws ws' : List (List α)} {s s' : List α} (hws : ∀ w ∈ ws, m.Plain w)
    (hws' : ∀ w ∈ ws', m.Plain w) (hs : GoesOn [m.head, m.opens, m.closes] s)
    (hs' : GoesOn [m.head, m.opens, m.closes] s')
    (h : m.wordsText ws ++ s = m.wordsText ws' ++ s') : ws = ws' ∧ s = s' := by
  have hword : m.word ∉ [m.head, m.opens, m.closes] := by
    have := m.distinct
    simp only [List.nodup_cons, List.mem_cons, not_or] at this ⊢
    exact ⟨fun h => this.1.1 h.symm, this.2.1.1, this.2.1.2⟩
  induction ws generalizing ws' with
  | nil =>
    cases ws' with
    | nil => exact ⟨rfl, h⟩
    | cons w' ws' => exact absurd (hs m.word (by rw [show s = _ from h]; rfl)) hword
  | cons w ws ih =>
    cases ws' with
    | nil => exact absurd (hs' m.word (by rw [show s' = _ from h.symm]; rfl)) hword
    | cons w' ws' =>
      simp only [wordsText, List.flatMap_cons, List.append_assoc] at h
      obtain ⟨rfl, hrest⟩ := word_inj (hws w List.mem_cons_self) (hws' w' List.mem_cons_self)
        (goesOn_wordsText hs) (goesOn_wordsText hs') (List.cons.inj h).2
      obtain ⟨rfl, rfl⟩ := ih (fun v hv => hws v (List.mem_cons_of_mem _ hv))
        (fun v hv => hws' v (List.mem_cons_of_mem _ hv)) hrest
      exact ⟨rfl, rfl⟩

variable (m) in
def nodeText (head : List α) (words : List (List α)) (rest : List α) : List α :=
  m.head :: (head ++ (m.wordsText words ++ rest))

theorem nodeText_append (head : List α) (words : List (List α)) (rest x : List α) :
    m.nodeText head words rest ++ x = m.nodeText head words (rest ++ x) := by
  simp [nodeText]

theorem nodeText_inj {head head' : List α} {words words' : List (List α)} {rest rest' : List α}
    (hhead : m.Plain head) (hhead' : m.Plain head') (hwords : ∀ w ∈ words, m.Plain w)
    (hwords' : ∀ w ∈ words', m.Plain w) (hrest : GoesOn [m.head, m.opens, m.closes] rest)
    (hrest' : GoesOn [m.head, m.opens, m.closes] rest')
    (h : m.nodeText head words rest = m.nodeText head' words' rest') :
    head = head' ∧ words = words' ∧ rest = rest' := by
  obtain ⟨rfl, htail⟩ := word_inj hhead hhead' (goesOn_wordsText hrest) (goesOn_wordsText hrest')
    (List.cons.inj h).2
  obtain ⟨rfl, rfl⟩ := words_inj hwords hwords' hrest hrest' htail
  exact ⟨rfl, rfl, rfl⟩

end Marks

mutual

def Tree.text (m : Marks α) : Tree α → List α
  | .leaf head words => m.nodeText head words []
  | .branch head words block => m.nodeText head words (m.opens :: (texts m block ++ [m.closes]))

def texts (m : Marks α) : List (Tree α) → List α
  | [] => []
  | t :: ts => t.text m ++ texts m ts

end

mutual

def Tree.Plain (m : Marks α) : Tree α → Prop
  | .leaf head words => m.Plain head ∧ ∀ w ∈ words, m.Plain w
  | .branch head words block => m.Plain head ∧ (∀ w ∈ words, m.Plain w) ∧ AllPlain m block

def AllPlain (m : Marks α) : List (Tree α) → Prop
  | [] => True
  | t :: ts => t.Plain m ∧ AllPlain m ts

end

open Marks

variable {m : Marks α}

theorem texts_append (ts us : List (Tree α)) : texts m (ts ++ us) = texts m ts ++ texts m us := by
  induction ts with
  | nil => rfl
  | cons t ts ih => rw [List.cons_append, texts, texts, ih, List.append_assoc]

theorem texts_cons_head? (t : Tree α) (ts : List (Tree α)) (x : List α) :
    (texts m (t :: ts) ++ x).head? = some m.head := by
  cases t <;> rfl

theorem goesOn_texts {ts : List (Tree α)} {x : List α} (hx : GoesOn [m.closes] x) :
    GoesOn [m.head, m.closes] (texts m ts ++ x) := by
  cases ts with
  | nil => exact goesOn_mono (by simp) hx
  | cons t ts =>
    intro a ha
    obtain rfl : m.head = a := Option.some.inj ((texts_cons_head? t ts x).symm.trans ha)
    simp

theorem Marks.head_ne_closes (m : Marks α) : m.head ≠ m.closes := by
  have := m.distinct
  simp only [List.nodup_cons, List.mem_cons, not_or] at this
  exact this.1.2.2.1

theorem Marks.opens_not_mem (m : Marks α) : m.opens ∉ [m.head, m.closes] := by
  have := m.distinct
  simp only [List.nodup_cons, List.mem_cons, not_or] at this ⊢
  exact ⟨fun h => this.1.2.1 h.symm, this.2.2.1⟩

theorem leaf_ne_branch {head head' : List α} {words words' : List (List α)} {block x x' : List α}
    (hhead : m.Plain head) (hhead' : m.Plain head') (hwords : ∀ w ∈ words, m.Plain w)
    (hwords' : ∀ w ∈ words', m.Plain w) (hx : GoesOn [m.head, m.closes] x)
    (h : m.nodeText head words [] ++ x = m.nodeText head' words' (m.opens :: block) ++ x') : False := by
  rw [nodeText_append, nodeText_append] at h
  have hopens : GoesOn [m.head, m.opens, m.closes] (m.opens :: block ++ x') := by
    intro a ha
    obtain rfl : m.opens = a := Option.some.inj ha
    simp
  obtain ⟨-, -, rfl⟩ := nodeText_inj hhead hhead' hwords hwords' (goesOn_mono (by simp) hx) hopens h
  exact m.opens_not_mem (hx m.opens rfl)

mutual

theorem Tree.text_inj : ∀ (t t' : Tree α) {x x' : List α}, t.Plain m → t'.Plain m →
    GoesOn [m.head, m.closes] x → GoesOn [m.head, m.closes] x' → t.text m ++ x = t'.text m ++ x' →
    t = t' ∧ x = x'
  | .leaf head words, .leaf head' words', x, x', ht, ht', hx, hx', h => by
    rw [Tree.text, Tree.text, nodeText_append, nodeText_append] at h
    obtain ⟨rfl, rfl, rfl⟩ := nodeText_inj ht.1 ht'.1 ht.2 ht'.2
      (goesOn_mono (by simp) hx) (goesOn_mono (by simp) hx') h
    exact ⟨rfl, rfl⟩
  | .leaf head words, .branch head' words' block', x, x', ht, ht', hx, hx', h => by
    rw [Tree.text, Tree.text] at h
    exact (leaf_ne_branch ht.1 ht'.1 ht.2 ht'.2.1 hx h).elim
  | .branch head words block, .leaf head' words', x, x', ht, ht', hx, hx', h => by
    rw [Tree.text, Tree.text] at h
    exact (leaf_ne_branch ht'.1 ht.1 ht'.2 ht.2.1 hx' h.symm).elim
  | .branch head words block, .branch head' words' block', x, x', ht, ht', hx, hx', h => by
    rw [Tree.text, Tree.text, nodeText_append, nodeText_append] at h
    have hopens : ∀ s : List α, GoesOn [m.head, m.opens, m.closes] (m.opens :: s) := by
      intro s a ha
      obtain rfl : m.opens = a := Option.some.inj ha
      simp
    have hcloses : ∀ s : List α, GoesOn [m.closes] (m.closes :: s) := by
      intro s a ha
      obtain rfl : m.closes = a := Option.some.inj ha
      simp
    obtain ⟨rfl, rfl, hblock⟩ := nodeText_inj ht.1 ht'.1 ht.2.1 ht'.2.1 (hopens _) (hopens _) h
    have hblock : texts m block ++ [m.closes] ++ x = texts m block' ++ [m.closes] ++ x' :=
      (List.cons.inj hblock).2
    rw [List.append_assoc, List.append_assoc] at hblock
    obtain ⟨rfl, hrest⟩ := texts_inj block block' ht.2.2 ht'.2.2 (hcloses x) (hcloses x') hblock
    obtain ⟨-, rfl⟩ := List.cons.inj hrest
    exact ⟨rfl, rfl⟩

theorem texts_inj : ∀ (ts ts' : List (Tree α)) {x x' : List α}, AllPlain m ts → AllPlain m ts' →
    GoesOn [m.closes] x → GoesOn [m.closes] x' → texts m ts ++ x = texts m ts' ++ x' →
    ts = ts' ∧ x = x'
  | [], [], x, x', _, _, _, _, h => ⟨rfl, h⟩
  | [], t' :: ts', x, x', _, _, hx, _, h => by
    obtain rfl : x = texts m (t' :: ts') ++ x' := h
    have hclose := hx m.head (texts_cons_head? t' ts' x')
    exact absurd (List.mem_singleton.mp hclose) m.head_ne_closes
  | t :: ts, [], x, x', _, _, _, hx', h => by
    obtain rfl : x' = texts m (t :: ts) ++ x := h.symm
    have hclose := hx' m.head (texts_cons_head? t ts x)
    exact absurd (List.mem_singleton.mp hclose) m.head_ne_closes
  | t :: ts, t' :: ts', x, x', hts, hts', hx, hx', h => by
    rw [texts, texts, List.append_assoc, List.append_assoc] at h
    obtain ⟨rfl, htail⟩ := Tree.text_inj t t' hts.1 hts'.1 (goesOn_texts hx) (goesOn_texts hx') h
    obtain ⟨rfl, rfl⟩ := texts_inj ts ts' hts.2 hts'.2 hx hx' htail
    exact ⟨rfl, rfl⟩

end

theorem texts_injective {ts ts' : List (Tree α)} (hts : AllPlain m ts) (hts' : AllPlain m ts')
    (h : texts m ts = texts m ts') : ts = ts' := by
  have hend : GoesOn [m.closes] ([] : List α) := fun a ha => nomatch ha
  refine (texts_inj ts ts' hts hts' hend hend ?_).1
  rw [h]

end Brackets
