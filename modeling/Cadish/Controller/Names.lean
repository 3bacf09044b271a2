import Cadish.Controller.Generated

/-!
# Names in generated sites

Matchers are numbered, `@r0`, `@r1`, and never alike (`itoa_injective`). Upstreams are named after
namespace, service and port, with `_` for what is not a letter or a digit and between the parts, so
their names may collide.
-/

namespace Cadish

open List Nat

namespace Controller

open Cadishfile

/-! ## Numbers -/

variable (i n : Nat) (s : Str)

def itoa : Str := (Nat.toDigits 10 n).map Str.byte

theorem isDigit_of_mem_toDigits {n : Nat} {c : Char} (h : c ∈ Nat.toDigits 10 n) :
    48 ≤ c.toNat ∧ c.toNat ≤ 57 := by
  have hdigit := Nat.isDigit_of_mem_toDigits (by decide) (by decide) h
  rw [Char.isDigit, Bool.and_eq_true, decide_eq_true_eq, decide_eq_true_eq] at hdigit
  exact ⟨UInt32.le_iff_toNat_le.mp hdigit.1, UInt32.le_iff_toNat_le.mp hdigit.2⟩

theorem byte_toNat {c : Char} (h : c.toNat ≤ 57) : (Str.byte c).toNat = c.toNat :=
  mod_eq_of_lt (show c.toNat < 256 by omega)

theorem map_itoa : (itoa n).map (fun b => Char.ofNat b.toNat) = toDigits 10 n := by
  rw [itoa, List.map_map]
  conv_rhs => rw [← List.map_id (toDigits 10 n)]
  refine map_congr_left fun c hc => ?_
  rw [Function.comp_apply, byte_toNat (isDigit_of_mem_toDigits hc).2, Char.ofNat_toNat, id]

theorem itoa_injective {m n : Nat} (h : itoa m = itoa n) : m = n := by
  have hdigits : toDigits 10 m = toDigits 10 n := by rw [← map_itoa, h, map_itoa]
  calc
    m = ofDigitChars 10 (toDigits 10 m) 0 := ofDigitChars_ten_toDigits.symm
    _ = ofDigitChars 10 (toDigits 10 n) 0 := by rw [hdigits]
    _ = n := ofDigitChars_ten_toDigits

theorem itoa_digit {n : Nat} {b : UInt8} (h : b ∈ itoa n) : 48 ≤ b.toNat ∧ b.toNat ≤ 57 := by
  obtain ⟨c, hc, rfl⟩ := List.mem_map.mp h
  have hdigit := isDigit_of_mem_toDigits hc
  rw [byte_toNat hdigit.2]
  exact hdigit

theorem itoa_ne_nil : itoa n ≠ [] := by
  intro h
  have hnil : toDigits 10 n = [] := map_eq_nil_iff.mp h
  exact absurd hnil (toDigits_ne_nil)

/-! ## Words -/

theorem isPlainByte_iff (b : UInt8) :
    isPlainByte b = true ↔ 33 ≤ b.toNat ∧ b.toNat < 127 ∧ b.toNat ∉ [34, 35, 59, 92, 123, 125] := by
  have hspecial : lit "\"#;\\\x7b\x7d" = [34, 35, 59, 92, 123, 125] := by decide
  rw [isPlainByte, hspecial]
  simp [← UInt8.toNat_inj]
  tauto

def isNameByte (others : Str) (b : UInt8) : Bool :=
  (97 ≤ b && b ≤ 122) || (65 ≤ b && b ≤ 90) || (48 ≤ b && b ≤ 57) || others.elem b

theorem isPlainByte_of_isNameByte {others : Str} (hothers : ∀ b ∈ others, isPlainByte b = true) {b : UInt8}
    (h : isNameByte others b = true) : isPlainByte b = true := by
  rw [isNameByte, Bool.or_eq_true] at h
  rcases h with h | h
  · rw [isPlainByte_iff]
    simp only [Bool.or_eq_true, UInt8.le_iff_toNat_le] at h
    simp at h ⊢
    omega
  · exact hothers b (mem_of_elem_eq_true h)

theorem plain_itoa : Plain (itoa n) := by
  refine ⟨itoa_ne_nil n, fun b hb => ?_⟩
  have hdigit := itoa_digit hb
  rw [isPlainByte_iff]
  simp
  omega

theorem lookup_of_nodup {α : Type} {l : List (Str × α)} (hnodup : (l.map Prod.fst).Nodup) {k : Str} {v : α}
    (h : (k, v) ∈ l) : l.lookup k = some v := by
  obtain ⟨before, behind, rfl⟩ := append_of_mem h
  refine lookup_eq_some_iff.mpr ⟨before, behind, rfl, fun p hp => ?_⟩
  rw [map_append] at hnodup
  have hne := (nodup_append.mp hnodup).2.2 p.1 (List.mem_map_of_mem hp) k mem_cons_self
  simpa using Ne.symm hne

def matcherName : Str := lit "r" ++ itoa i

theorem matcherName_injective {i j : Nat} (h : matcherName i = matcherName j) : i = j :=
  itoa_injective (append_cancel_left h)

theorem plain_matcherName : Plain (matcherName i) := Plain.append (by decide) (plain_itoa i)

/-! ## Backends -/

/-- The service behind a route, with its namespace and its port. -/
structure Target where
  ns : Str
  svc : Str
  port : Str
deriving DecidableEq, Repr

def Target.address (t : Target) : Str :=
  lit "k8s://" ++ t.svc ++ lit "." ++ t.ns ++ lit ":" ++ t.port

def sanitize : Str := s.map fun b => if isNameByte (lit "_") b then b else Str.byte '_'

def DnsName : Prop := s ≠ [] ∧ ∀ b ∈ s, isNameByte (lit "-.") b = true

instance (s : Str) : Decidable (DnsName s) := inferInstanceAs (Decidable (_ ∧ _))

structure Target.Valid (t : Target) : Prop where
  ns : DnsName t.ns
  svc : DnsName t.svc
  port : DnsName t.port

instance (t : Target) : Decidable t.Valid :=
  decidable_of_iff (DnsName t.ns ∧ DnsName t.svc ∧ DnsName t.port)
    ⟨fun h => ⟨h.1, h.2.1, h.2.2⟩, fun h => ⟨h.ns, h.svc, h.port⟩⟩

theorem DnsName.plain {s : Str} (h : DnsName s) : Plain s :=
  ⟨h.1, fun b hb => isPlainByte_of_isNameByte (by decide) (h.2 b hb)⟩

theorem plain_sanitize {s : Str} (h : s ≠ []) : Plain (sanitize s) := by
  refine ⟨fun hnil => h (map_eq_nil_iff.mp hnil), fun b hb => ?_⟩
  obtain ⟨c, -, rfl⟩ := List.mem_map.mp hb
  split
  · rename_i hc
    exact @isPlainByte_of_isNameByte (lit "_") (by decide) _ hc
  · decide

theorem Target.Valid.plain_address {t : Target} (h : t.Valid) : Plain t.address := by
  have hk8s : Plain (lit "k8s://") := by decide
  have hdot : Plain (lit ".") := by decide
  have hcolon : Plain (lit ":") := by decide
  exact (((hk8s.append h.svc.plain).append hdot).append h.ns.plain).append hcolon |>.append h.port.plain

end Controller

end Cadish
