import Cadish.Text

/-!
# Characters

A byte that is part of no UTF-8 character counts as one of its own, and is written back as U+FFFD.
What a string looks like in ASCII does not change (`SameAscii`), and doing it twice does no more
than once (`toValidRunes_idem`).
-/

namespace Cadish

open List

variable {b : UInt8} {n : Nat} {s : Str}

def isContinuation (b : UInt8) : Bool := 0x80 ≤ b && b ≤ 0xbf

/-- The length of the UTF-8 character that a string begins with; 0 if it begins with none. -/
def runeLen : Str → Nat
  | [] => 0
  | b₁ :: s =>
    if b₁ < 0x80 then 1
    else if 0xc2 ≤ b₁ ∧ b₁ ≤ 0xdf then
      match s with
      | b₂ :: _ => if isContinuation b₂ then 2 else 0
      | _ => 0
    else if 0xe0 ≤ b₁ ∧ b₁ ≤ 0xef then
      match s with
      | b₂ :: b₃ :: _ =>
        let low := if b₁ = 0xe0 then 0xa0 else 0x80
        let high := if b₁ = 0xed then 0x9f else 0xbf
        if low ≤ b₂ ∧ b₂ ≤ high ∧ isContinuation b₃ then 3 else 0
      | _ => 0
    else if 0xf0 ≤ b₁ ∧ b₁ ≤ 0xf4 then
      match s with
      | b₂ :: b₃ :: b₄ :: _ =>
        let low := if b₁ = 0xf0 then 0x90 else 0x80
        let high := if b₁ = 0xf4 then 0x8f else 0xbf
        if low ≤ b₂ ∧ b₂ ≤ high ∧ isContinuation b₃ ∧ isContinuation b₄ then 4 else 0
      | _ => 0
    else 0

/-- The characters of a string, U+FFFD for each byte that is part of none, after the rest of the
current character. -/
def toValidRunes : Nat → Str → Str
  | _, [] => []
  | rest + 1, b :: s => b :: toValidRunes rest s
  | 0, b :: s =>
    match runeLen (b :: s) with
    | 0 => 0xef :: 0xbf :: 0xbd :: toValidRunes 0 s
    | rest + 1 => b :: toValidRunes rest s

/-! ## Characters in front -/

theorem isContinuation_high (h : isContinuation b = true) : 0x80 ≤ b := by
  rw [isContinuation, Bool.and_eq_true, decide_eq_true_eq] at h
  exact h.1

theorem of_ite_ne_zero {p : Prop} [Decidable p] {k : Nat} (h : (if p then k else 0) = n + 1) :
    p ∧ k = n + 1 := by
  split at h
  case isTrue hp => exact ⟨hp, h⟩
  case isFalse => cases h

theorem runeLen_succ (h : runeLen (b :: s) = n + 1) :
    n ≤ s.length ∧ (∀ c ∈ s.take n, 0x80 ≤ c) ∧ ∀ t, runeLen (b :: (s.take n ++ t)) = n + 1 := by
  have hlow {low : UInt8} {c : UInt8} (hl : low = 0x80 ∨ low = 0x90 ∨ low = 0xa0) (hc : low ≤ c) :
      0x80 ≤ c := by
    obtain rfl | rfl | rfl := hl
    · exact hc
    · exact UInt8.le_trans (by decide) hc
    · exact UInt8.le_trans (by decide) hc
  unfold runeLen at h ⊢
  dsimp only at h ⊢
  by_cases hascii : b < 0x80
  · rw [if_pos hascii] at h
    obtain rfl : n = 0 := by omega
    refine ⟨Nat.zero_le _, ?_, fun t => if_pos hascii⟩
    intro c hc
    cases hc
  rw [if_neg hascii] at h
  by_cases htwo : 0xc2 ≤ b ∧ b ≤ 0xdf
  · rw [if_pos htwo] at h
    cases s with
    | nil => cases h
    | cons b₂ s =>
      obtain ⟨h₂, h⟩ := of_ite_ne_zero h
      obtain rfl : n = 1 := by omega
      refine ⟨by simp, fun c hc => ?_, fun t => ?_⟩
      · obtain rfl : c = b₂ := mem_singleton.mp hc
        exact isContinuation_high h₂
      · rw [if_neg hascii, if_pos htwo]
        exact if_pos h₂
  · rw [if_neg htwo] at h
    by_cases hthree : 0xe0 ≤ b ∧ b ≤ 0xef
    · rw [if_pos hthree] at h
      cases s with
      | nil => cases h
      | cons b₂ s =>
        cases s with
        | nil => cases h
        | cons b₃ s =>
          obtain ⟨h₃, h⟩ := of_ite_ne_zero h
          obtain rfl : n = 2 := by omega
          refine ⟨by simp, fun c hc => ?_, fun t => ?_⟩
          · obtain rfl | hc := mem_cons.mp hc
            · refine hlow ?_ h₃.1
              split
              · exact .inr (.inr rfl)
              · exact .inl rfl
            · obtain rfl := mem_singleton.mp hc
              exact isContinuation_high h₃.2.2
          · rw [if_neg hascii, if_neg htwo, if_pos hthree]
            exact if_pos h₃
    · rw [if_neg hthree] at h
      obtain ⟨hfour, h⟩ := of_ite_ne_zero h
      cases s with
      | nil => cases h
      | cons b₂ s =>
        cases s with
        | nil => cases h
        | cons b₃ s =>
          cases s with
          | nil => cases h
          | cons b₄ s =>
            obtain ⟨h₄, h⟩ := of_ite_ne_zero h
            obtain rfl : n = 3 := by omega
            refine ⟨by simp, fun c hc => ?_, fun t => ?_⟩
            · obtain rfl | hc := mem_cons.mp hc
              · refine hlow ?_ h₄.1
                split
                · exact .inr (.inl rfl)
                · exact .inl rfl
              · obtain rfl | hc := mem_cons.mp hc
                · exact isContinuation_high h₄.2.2.1
                · obtain rfl := mem_singleton.mp hc
                  exact isContinuation_high h₄.2.2.2
            · rw [if_neg hascii, if_neg htwo, if_neg hthree, if_pos hfour]
              exact if_pos h₄

theorem runeLen_ascii (hb : b < 0x80) (s : Str) : runeLen (b :: s) = 1 := by
  exact if_pos hb

theorem toValidRunes_ascii (hb : b < 0x80) (s : Str) :
    toValidRunes 0 (b :: s) = b :: toValidRunes 0 s := by
  simp only [toValidRunes, runeLen_ascii hb]

theorem toValidRunes_rest (h : n ≤ s.length) :
    toValidRunes n s = s.take n ++ toValidRunes 0 (s.drop n) := by
  induction n generalizing s with
  | zero => rfl
  | succ n ih =>
    cases s with
    | nil => cases h
    | cons b s =>
      rw [toValidRunes, ih (Nat.le_of_succ_le_succ h)]
      rfl

theorem toValidRunes_rune (h : runeLen (b :: s) = n + 1) :
    toValidRunes 0 (b :: s) = b :: s.take n ++ toValidRunes 0 (s.drop n) := by
  have hrest := toValidRunes_rest (runeLen_succ h).1
  simp only [toValidRunes, h, hrest]
  rfl

/-- Induction along the characters of a string. -/
theorem rune_induction {P : Str → Prop} (nil : P [])
    (broken : ∀ b s, runeLen (b :: s) = 0 → (∀ k, P (s.drop k)) → P (b :: s))
    (rune : ∀ b s n, runeLen (b :: s) = n + 1 → P (s.drop n) → P (b :: s)) (s : Str) : P s := by
  induction hlen : s.length using Nat.strongRecOn generalizing s with
  | ind len ih =>
    cases s with
    | nil => exact nil
    | cons b s =>
      have hdrop (k : Nat) : P (s.drop k) := by
        refine ih _ ?_ _ rfl
        rw [← hlen, length_drop, length_cons]
        omega
      cases hrune : runeLen (b :: s) with
      | zero => exact broken b s hrune hdrop
      | succ n => exact rune b s n hrune (hdrop n)

theorem toValidRunes_idem (s : Str) : toValidRunes 0 (toValidRunes 0 s) = toValidRunes 0 s := by
  induction s using rune_induction with
  | nil => rfl
  | broken b s hrune ih =>
    have hstep : toValidRunes 0 (b :: s) = 0xef :: 0xbf :: 0xbd :: toValidRunes 0 s := by
      simp only [toValidRunes, hrune]
    rw [hstep]
    exact congrArg (fun t : Str => 0xef :: 0xbf :: 0xbd :: t) (ih 0)
  | rune b s n hrune ih =>
    obtain ⟨hle, -, hagain⟩ := runeLen_succ hrune
    have htake : (s.take n).length = n := length_take_of_le hle
    rw [toValidRunes_rune hrune, cons_append, toValidRunes_rune (hagain _), take_left' htake,
      drop_left' htake, ih, cons_append]

theorem toValidRunes_drop (hrune : runeLen (b :: s) = n + 1) (h : toValidRunes 0 (b :: s) = b :: s) :
    toValidRunes 0 (s.drop n) = s.drop n := by
  rw [toValidRunes_rune hrune, cons_append, cons.injEq] at h
  refine append_cancel_left (h.2.trans ?_)
  rw [take_append_drop]

/-! ## The same in ASCII -/

/-- The second string is the first with other bytes for those that are not ASCII. -/
inductive SameAscii : Str → Str → Prop
  | nil : SameAscii [] []
  | ascii {b : UInt8} {s t : Str} (hb : b < 0x80) (h : SameAscii s t) : SameAscii (b :: s) (b :: t)
  | high {b c : UInt8} {u s t : Str} (hb : 0x80 ≤ b) (hu : ∀ d ∈ c :: u, 0x80 ≤ d)
    (h : SameAscii s t) : SameAscii (b :: s) (c :: u ++ t)

theorem sameAscii_toValidRunes (hn : ∀ c ∈ s.take n, 0x80 ≤ c) : SameAscii s (toValidRunes n s) := by
  induction s generalizing n with
  | nil =>
    cases n with
    | zero | succ n => exact .nil
  | cons b s ih =>
    cases n with
    | succ n =>
      obtain ⟨hb, hn⟩ := forall_mem_cons.mp hn
      exact .high (u := []) hb (by simpa using hb) (ih hn)
    | zero =>
      cases hrune : runeLen (b :: s) with
      | zero =>
        have hb : 0x80 ≤ b := by
          by_contra hb
          rw [runeLen_ascii (UInt8.not_le.mp hb)] at hrune
          cases hrune
        simp only [toValidRunes, hrune]
        exact .high (u := [0xbf, 0xbd]) hb (by decide) (ih (n := 0) fun c hc => by cases hc)
      | succ n =>
        obtain ⟨-, hhigh, -⟩ := runeLen_succ hrune
        simp only [toValidRunes, hrune]
        by_cases hb : b < 0x80
        · exact .ascii hb (ih hhigh)
        · have hb := UInt8.not_lt.mp hb
          exact .high (u := []) hb (by simpa using hb) (ih hhigh)

theorem SameAscii.length_le {t : Str} (h : SameAscii s t) : s.length ≤ t.length := by
  induction h with
  | nil => exact Nat.le_refl _
  | ascii _ _ ih => exact Nat.succ_le_succ ih
  | high _ _ _ ih =>
    rw [length_cons, length_append, length_cons]
    omega

theorem SameAscii.count_eq {t : Str} (h : SameAscii s t) {a : UInt8} (ha : a < 0x80) :
    t.count a = s.count a := by
  induction h with
  | nil => rfl
  | ascii _ _ ih => rw [count_cons, count_cons, ih]
  | @high b c u s t hb hu _ ih =>
    have hne {d : UInt8} (hd : 0x80 ≤ d) : d ≠ a := by
      rintro rfl
      exact absurd ha (UInt8.not_lt.mpr hd)
    rw [count_append, count_cons_of_ne (hne hb), ih,
      count_eq_zero.mpr fun hmem => hne (hu a hmem) rfl, Nat.zero_add]

theorem toValidRunes_append (h : toValidRunes 0 s = s) (t : Str) :
    toValidRunes 0 (s ++ t) = s ++ toValidRunes 0 t := by
  induction s using rune_induction with
  | nil => rfl
  | broken b s hrune =>
    simp only [toValidRunes, hrune] at h
    have hle := (sameAscii_toValidRunes (n := 0) (s := s) fun c hc => by cases hc).length_le
    have hlen := congrArg length h
    simp only [length_cons] at hlen
    omega
  | rune b s n hrune ih =>
    obtain ⟨hle, -, hagain⟩ := runeLen_succ hrune
    have hsplit : s ++ t = s.take n ++ (s.drop n ++ t) := by
      rw [← append_assoc, take_append_drop]
    have hagain' : runeLen (b :: (s ++ t)) = n + 1 := by
      rw [hsplit]
      exact hagain _
    rw [cons_append, toValidRunes_rune hagain', take_append_of_le_length hle,
      drop_append_of_le_length hle, ih (toValidRunes_drop hrune h), cons_append, ← append_assoc,
      take_append_drop, cons_append]

end Cadish
