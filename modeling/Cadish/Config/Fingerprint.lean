import Cadish.Cadishfile.Syntax
import Cadish.Lib.Brackets

/-!
# The fingerprint of a recipe

A site keeps a SHA-256 digest of the directives that are meant to define its keys. **The text tells
names, arguments and blocks** (`Site.vocab_items_eq`), provided that no argument holds a control
byte, but not whether an argument was quoted: a reference to a matcher is written like a text that
begins with `@`.
-/

namespace Cadish

open List

namespace Cadishfile

open Brackets

/-! ## Writing -/

mutual

/-- `writeDirectiveFingerprint`; a matcher definition is passed over. -/
def Node.writeFingerprint : Node → Str
  | .matcherDef _ _ _ => []
  | .directive name args none => 0x01 :: (name ++ args.flatMap fun a => 0x02 :: a.raw)
  | .directive name args (some block) =>
    0x01 :: (name ++ ((args.flatMap fun a => 0x02 :: a.raw) ++
      0x03 :: (writeFingerprints block ++ [0x04])))

def writeFingerprints : List Node → Str
  | [] => []
  | n :: ns => n.writeFingerprint ++ writeFingerprints ns

end

def cacheKeyVocabDirectives : List Str :=
  [lit "cache_key", lit "normalize", lit "classify", lit "tenant", lit "device_detect", lit "geo"]

def Node.inVocab : Node → Bool
  | .matcherDef _ _ _ => false
  | .directive name _ _ => cacheKeyVocabDirectives.elem name

def Site.vocab (site : Site) : List Node := site.body.filter Node.inVocab

def cacheKeyFingerprint (digest : Str → Str) (site : Site) : Str := digest (writeFingerprints site.vocab)

/-! ## Reading -/

def controlMarks : Marks UInt8 := ⟨0x01, 0x02, 0x03, 0x04, by decide⟩

mutual

def Node.trees : Node → List (Brackets.Tree UInt8)
  | .matcherDef _ _ _ => []
  | .directive name args none => [.leaf name (args.map (·.raw))]
  | .directive name args (some block) => [.branch name (args.map (·.raw)) (nodeTrees block)]

def nodeTrees : List Node → List (Brackets.Tree UInt8)
  | [] => []
  | n :: ns => n.trees ++ nodeTrees ns

end

theorem wordsText_map_raw (args : List Arg) :
    controlMarks.wordsText (args.map (·.raw)) = args.flatMap fun a => 0x02 :: a.raw := by
  rw [Marks.wordsText, flatMap_map]
  rfl

mutual

theorem Node.writeFingerprint_eq : ∀ n : Node, n.writeFingerprint = texts controlMarks n.trees
  | .matcherDef _ _ _ => rfl
  | .directive name args none => by
    rw [Node.writeFingerprint, Node.trees, texts, Brackets.Tree.text, Marks.nodeText, wordsText_map_raw]
    simp only [texts, append_nil]
    rfl
  | .directive name args (some block) => by
    rw [Node.writeFingerprint, Node.trees, texts, Brackets.Tree.text, Marks.nodeText, wordsText_map_raw,
      writeFingerprints_eq block]
    simp only [texts, append_nil]
    rfl

theorem writeFingerprints_eq : ∀ ns : List Node,
    writeFingerprints ns = texts controlMarks (nodeTrees ns)
  | [] => rfl
  | n :: ns => by
    rw [writeFingerprints, nodeTrees, texts_append, Node.writeFingerprint_eq n,
      writeFingerprints_eq ns]

end

/-! ## What a compiler reads of it -/

def bareWord (raw : Str) : Word := ⟨raw, looksLikeRef raw⟩

def Line.ofTree : Brackets.Tree UInt8 → Line
  | .leaf name words => ⟨name, words.map bareWord⟩
  | .branch name words _ => ⟨name, words.map bareWord⟩

def Stmt.ofTree : Brackets.Tree UInt8 → Stmt
  | .leaf name words => ⟨name, words.map bareWord, none⟩
  | .branch name words block => ⟨name, words.map bareWord, some (block.map Line.ofTree)⟩

/-- An argument that is not a reference in quotes. -/
def Arg.Bare (a : Arg) : Prop := a.quoted = true → looksLikeRef a.raw = false

def Node.args : Node → List Arg
  | .matcherDef _ _ args => args
  | .directive _ args _ => args

def Node.block : Node → List Node
  | .matcherDef _ _ _ => []
  | .directive _ _ block => block.getD []

def Node.Bare (n : Node) : Prop := (∀ a ∈ n.args, a.Bare) ∧ ∀ m ∈ n.block, ∀ a ∈ m.args, a.Bare

theorem Arg.word_eq {a : Arg} (h : a.Bare) : a.word = bareWord a.raw := by
  rw [Arg.word, Arg.kind, classifyArg]
  congr 1
  cases hq : a.quoted with
  | true =>
    rw [h hq]
    rfl
  | false =>
    cases looksLikeRef a.raw with
    | true => rfl
    | false =>
      simp only [Bool.false_eq_true, if_false]
      split <;> rfl

theorem words_eq {args : List Arg} (h : ∀ a ∈ args, a.Bare) :
    args.map Arg.word = (args.map (·.raw)).map bareWord := by
  rw [List.map_map]
  exact map_congr_left fun a ha => Arg.word_eq (h a ha)

theorem Node.line_eq : ∀ {n : Node}, (∀ a ∈ n.args, a.Bare) → n.line?.toList = n.trees.map Line.ofTree
  | .matcherDef _ _ _, _ => rfl
  | .directive name _ none, h => congrArg (fun words => [Line.mk name words]) (words_eq h)
  | .directive name _ (some _), h => congrArg (fun words => [Line.mk name words]) (words_eq h)

theorem lines_eq {ns : List Node} (h : ∀ n ∈ ns, ∀ a ∈ n.args, a.Bare) :
    ns.filterMap Node.line? = (nodeTrees ns).map Line.ofTree := by
  induction ns with
  | nil => rfl
  | cons n ns ih =>
    rw [nodeTrees, map_append, ← Node.line_eq (h n mem_cons_self),
      ← ih fun m hm => h m (mem_cons_of_mem _ hm), filterMap_cons]
    cases n.line? <;> rfl

theorem Node.item_eq : ∀ {n : Node}, n.inVocab = true → n.Bare →
    [n.item] = n.trees.map fun t => .directive (Stmt.ofTree t)
  | .directive name _ none, _, h =>
    congrArg (fun words => [Item.directive ⟨name, words, none⟩]) (words_eq h.1)
  | .directive name args (some block), _, h => by
    have hwords : args.map Arg.word = (args.map (·.raw)).map bareWord := words_eq h.1
    have hlines : block.filterMap Node.line? = (nodeTrees block).map Line.ofTree := lines_eq h.2
    rw [Node.item, hwords, Option.map_some, hlines]
    rfl

theorem items_eq {ns : List Node} (hdir : ∀ n ∈ ns, n.inVocab = true) (h : ∀ n ∈ ns, n.Bare) :
    ns.map Node.item = (nodeTrees ns).map fun t => .directive (Stmt.ofTree t) := by
  induction ns with
  | nil => rfl
  | cons n ns ih =>
    have ih := ih (fun m hm => hdir m (mem_cons_of_mem _ hm))
      fun m hm => h m (mem_cons_of_mem _ hm)
    have hn := Node.item_eq (hdir n mem_cons_self) (h n mem_cons_self)
    rw [nodeTrees, map_append, ← ih, ← hn]
    rfl

/-- The fingerprinted directives of a site are plain: no control byte, no reference in quotes. -/
structure Site.Plain (site : Site) : Prop where
  marks : AllPlain controlMarks (nodeTrees site.vocab)
  bare : ∀ n ∈ site.vocab, n.Bare

theorem Node.inVocab_eq (n : Node) : n.inVocab = n.item.isNamed cacheKeyVocabDirectives := by
  cases n <;> rfl

theorem Site.vocab_items (site : Site) :
    site.items.filter (Item.isNamed cacheKeyVocabDirectives) = site.vocab.map Node.item := by
  rw [Site.items, List.filter_map]
  congr 1
  exact filter_congr fun n _ => (Node.inVocab_eq n).symm

theorem Site.vocab_items_eq {site site' : Site} (h : site.Plain) (h' : site'.Plain)
    (htext : writeFingerprints site.vocab = writeFingerprints site'.vocab) :
    site.items.filter (Item.isNamed cacheKeyVocabDirectives) =
      site'.items.filter (Item.isNamed cacheKeyVocabDirectives) := by
  have hvocab (s : Site) : ∀ n ∈ s.vocab, n.inVocab = true := fun n hn => (mem_filter.mp hn).2
  have htrees : nodeTrees site.vocab = nodeTrees site'.vocab := by
    rw [writeFingerprints_eq, writeFingerprints_eq] at htext
    exact texts_injective h.marks h'.marks htext
  rw [site.vocab_items, site'.vocab_items, items_eq (hvocab site) h.bare, htrees,
    items_eq (hvocab site') h'.bare]

end Cadishfile

end Cadish
