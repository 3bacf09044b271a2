import Cadish.Text

/-!
# The syntax tree of a Cadishfile

A site is a list of matcher definitions and directives. All the parser says of an argument is its
*kind*: `@x` refers to a matcher, and `"@x"` is a text. What the compilers read of a statement is
its `Item`; they pass over matcher definitions in a block. Positions are left out, and the items are
those of a site whose imports and placeholders are replaced.
-/

namespace Cadish

namespace Cadishfile

/-! ## Arguments -/

inductive ArgKind where
  | literal
  | matcherRef
  | placeholder
deriving DecidableEq, Repr

def containsPlaceholder : Str → Bool
  | [] => false
  | [b] => b == Str.byte '{'
  | b :: c :: text =>
    if b = Str.byte '\\' then containsPlaceholder text
    else if b = Str.byte '{' then true
    else containsPlaceholder (c :: text)

def looksLikeRef (text : Str) : Bool := Str.hasPrefix text (lit "@") && 1 < text.length

def classifyArg (text : Str) (quoted : Bool) : ArgKind :=
  if quoted then .literal
  else if looksLikeRef text then .matcherRef
  else if containsPlaceholder text then .placeholder
  else .literal

/-- `Arg`. Its kind is not a field of its own, as it is always the one of `classifyArg`. -/
structure Arg where
  raw : Str
  quoted : Bool
deriving DecidableEq, Repr

def Arg.kind (a : Arg) : ArgKind := classifyArg a.raw a.quoted

/-! ## Statements -/

inductive Node where
  | matcherDef (name type : Str) (args : List Arg)
  | directive (name : Str) (args : List Arg) (block : Option (List Node))

mutual

def Node.decEq : (m n : Node) → Decidable (m = n)
  | .matcherDef name type args, .matcherDef name' type' args' =>
    decidable_of_iff (name = name' ∧ type = type' ∧ args = args') (by simp)
  | .matcherDef _ _ _, .directive _ _ _ => isFalse (by simp)
  | .directive _ _ _, .matcherDef _ _ _ => isFalse (by simp)
  | .directive name args none, .directive name' args' none =>
    decidable_of_iff (name = name' ∧ args = args') (by simp)
  | .directive _ _ none, .directive _ _ (some _) => isFalse (by simp)
  | .directive _ _ (some _), .directive _ _ none => isFalse (by simp)
  | .directive name args (some block), .directive name' args' (some block') =>
    let _ := Node.decEqAll block block'
    decidable_of_iff (name = name' ∧ args = args' ∧ block = block') (by simp)

def Node.decEqAll : (ms ns : List Node) → Decidable (ms = ns)
  | [], [] => isTrue rfl
  | [], _ :: _ => isFalse (by simp)
  | _ :: _, [] => isFalse (by simp)
  | m :: ms, n :: ns =>
    let _ := m.decEq n
    let _ := Node.decEqAll ms ns
    decidable_of_iff (m = n ∧ ms = ns) (by simp)

end

instance : DecidableEq Node := Node.decEq

structure Site where
  addresses : List Str
  body : List Node
deriving DecidableEq

/-! ## What a compiler reads -/

structure Word where
  raw : Str
  ref : Bool
deriving DecidableEq, Repr

structure Line where
  name : Str
  words : List Word
deriving DecidableEq, Repr

structure Stmt where
  name : Str
  words : List Word
  block : Option (List Line)
deriving DecidableEq, Repr

/-- What is read of a statement. -/
inductive Item where
  | matcherDef (name type : Str) (words : List Word)
  | directive (d : Stmt)
deriving DecidableEq, Repr

def Arg.word (a : Arg) : Word := ⟨a.raw, a.kind = .matcherRef⟩

def Node.line? : Node → Option Line
  | .matcherDef _ _ _ => none
  | .directive name args _ => some ⟨name, args.map Arg.word⟩

def Node.item : Node → Item
  | .matcherDef name type args => .matcherDef name type (args.map Arg.word)
  | .directive name args block =>
    .directive ⟨name, args.map Arg.word, block.map fun ns => ns.filterMap Node.line?⟩

def Site.items (site : Site) : List Item := site.body.map Node.item

def rawArgs (words : List Word) : List Str := words.map (·.raw)

/-- The lines of a directive's block; none without one. -/
def Stmt.lines (d : Stmt) : List Line := d.block.getD []

def Item.isMatcherDef : Item → Bool
  | .matcherDef _ _ _ => true
  | .directive _ => false

def Item.isNamed (names : List Str) : Item → Bool
  | .matcherDef _ _ _ => false
  | .directive d => names.elem d.name

def directives (items : List Item) : List Stmt :=
  items.filterMap fun
    | .matcherDef _ _ _ => none
    | .directive d => some d

def named (name : Str) (ds : List Stmt) : List Stmt := ds.filter fun d => d.name = name

end Cadishfile

end Cadish
