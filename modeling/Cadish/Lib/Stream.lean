import Mathlib.Data.List.Basic

/-!
# Streams that are read in chunks

A reader hands out its content in chunks of its own choosing and then ends, cleanly or with an
error. `readAtMost` collects up to a number of elements, and `prepend` puts back what was read; what
they do does not depend on the chunks.
-/

universe u

namespace Stream

open List

/-- A reader: the chunks it will hand out, and how it ends. -/
structure Reader (α : Type u) where
  chunks : List (List α)
  fails : Bool
  /-- the error comes with the last chunk, not after it -/
  eager : Bool
deriving DecidableEq

namespace Reader

variable {α : Type u}

def content (r : Reader α) : List α := r.chunks.flatten

/-- The loop of `readAtMost`: what was read, whether it failed, and the chunks left. A chunk
that does not fit is cut. -/
def readLoop (fails eager : Bool) : Nat → List (List α) → List α × Bool × List (List α)
  | 0, cs => ([], false, cs)
  | _ + 1, [] => ([], fails, [])
  | n + 1, c :: cs =>
    if c.length ≤ n + 1 then
      if cs.isEmpty && eager && fails then (c, true, [])
      else
        let next := readLoop fails eager (n + 1 - c.length) cs
        (c ++ next.1, next.2.1, next.2.2)
    else (c.take (n + 1), false, c.drop (n + 1) :: cs)

/-- Read up to `n` elements: what was read, whether it failed, and the reader after it. -/
def readAtMost (n : Nat) (r : Reader α) : List α × Bool × Reader α :=
  let out := readLoop r.fails r.eager n r.chunks
  (out.1, out.2.1, { r with chunks := out.2.2 })

theorem readLoop_split (fails eager : Bool) (n : Nat) (cs : List (List α)) :
    (readLoop fails eager n cs).1 = cs.flatten.take n ∧
      (readLoop fails eager n cs).2.2.flatten = cs.flatten.drop n := by
  induction cs generalizing n with
  | nil => cases n <;> simp [readLoop]
  | cons c cs ih =>
    cases n with
    | zero => simp [readLoop]
    | succ n =>
      rw [readLoop]
      split
      case isTrue hc =>
        split
        case isTrue he =>
          obtain rfl : cs = [] := by simp_all
          simp [take_of_length_le hc, drop_of_length_le hc]
        case isFalse =>
          simp [ih, take_append, drop_append, take_of_length_le hc, drop_of_length_le hc]
      case isFalse hc =>
        have hle : n + 1 ≤ c.length := by omega
        simp [take_append_of_le_length hle, drop_append_of_le_length hle]

theorem readLoop_failed {fails eager : Bool} {n : Nat} {cs : List (List α)}
    (h : (readLoop fails eager n cs).2.1 = true) :
    fails = true ∧ cs.flatten.length ≤ n ∧ (readLoop fails eager n cs).2.2 = [] := by
  induction cs generalizing n with
  | nil =>
    cases n with
    | zero => cases h
    | succ n => exact ⟨h, Nat.zero_le _, rfl⟩
  | cons c cs ih =>
    cases n with
    | zero => cases h
    | succ n =>
      rw [readLoop] at h ⊢
      split at h
      case isTrue hc =>
        rw [if_pos hc]
        split at h
        case isTrue he =>
          rw [if_pos he]
          simp only [Bool.and_eq_true, List.isEmpty_iff] at he
          obtain ⟨⟨rfl, -⟩, hf⟩ := he
          exact ⟨hf, by simpa using hc, rfl⟩
        case isFalse he =>
          rw [if_neg he]
          obtain ⟨hf, hlen, hrest⟩ := ih h
          refine ⟨hf, ?_, hrest⟩
          rw [flatten_cons, length_append]
          omega
      case isFalse => cases h

theorem readLoop_all {fails eager : Bool} {n : Nat} {cs : List (List α)} (h : cs.flatten.length < n) :
    (readLoop fails eager n cs).2.1 = fails := by
  induction cs generalizing n with
  | nil =>
    cases n with
    | zero => exact absurd h (Nat.not_lt_zero _)
    | succ n => rfl
  | cons c cs ih =>
    rw [flatten_cons, length_append] at h
    cases n with
    | zero => exact absurd h (Nat.not_lt_zero _)
    | succ n =>
      rw [readLoop, if_pos (by omega)]
      split
      case isTrue he =>
        simp only [Bool.and_eq_true] at he
        exact he.2.symm
      case isFalse => exact ih (by omega)

/-! ## Putting back -/

def pieces (size : Nat) : Nat → List α → List (List α)
  | 0, _ => []
  | fuel + 1, b => if b.isEmpty then [] else b.take size :: pieces size fuel (b.drop size)

theorem flatten_pieces {size : Nat} (hsize : 0 < size) (fuel : Nat) (b : List α)
    (hb : b.length ≤ fuel) : (pieces size fuel b).flatten = b := by
  induction fuel generalizing b with
  | zero =>
    obtain rfl : b = [] := eq_nil_of_length_eq_zero (Nat.le_zero.mp hb)
    rfl
  | succ fuel ih =>
    rw [pieces]
    split
    case isTrue h => simpa using h
    case isFalse h =>
      rw [flatten_cons, ih _ (by rw [length_drop]; omega), take_append_drop]

/-- The reader with a text in front of it, which is read in pieces of a size. -/
def prepend (size : Nat) (b : List α) (r : Reader α) : Reader α :=
  { r with chunks := pieces size b.length b ++ r.chunks }

theorem content_prepend {size : Nat} (hsize : 0 < size) (b : List α) (r : Reader α) :
    (r.prepend size b).content = b ++ r.content := by
  rw [prepend, content, flatten_append, flatten_pieces hsize _ _ (Nat.le_refl _), content]

end Reader

end Stream
