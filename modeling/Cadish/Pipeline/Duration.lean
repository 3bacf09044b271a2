import Mathlib.Algebra.Ring.Int.Defs
import Mathlib.Order.Basic
import Cadish.Pipeline.Request
import Cadish.Time

/-!
# Duration texts

`parseDuration` reads the durations of a configuration, and `headerTTL` those of a response header.
The nanoseconds of a term are computed in 64-bit floating point and truncated, and the terms are
summed with an overflow check.
-/

namespace Cadish

def isDigit (b : UInt8) : Bool := 0x30 ≤ b && b ≤ 0x39

/-- The digits of a number, accumulated in 64 bits without a check. -/
def wrapDigits (ds : Str) : Int64 :=
  ds.foldl (fun n b => n * 10 + Int64.ofNat (b.toNat - 48)) 0

def unitDuration (u : Str) : Option Duration :=
  if u = lit "ns" then some 1
  else if u = lit "us" ∨ u = lit "µs" ∨ u = lit "μs" then some 1000
  else if u = lit "ms" then some 1000000
  else if u = lit "s" then some second
  else if u = lit "m" then some (60 * second)
  else if u = lit "h" then some (3600 * second)
  else if u = lit "d" then some (24 * 3600 * second)
  else if u = lit "w" then some (7 * 24 * 3600 * second)
  else none

def truncFloat (x : Float) : Int :=
  match x.toModel.unpack with
  | .finite sign m e _ =>
    let mag : Int := if 0 ≤ e then m * 2 ^ e.toNat else m / 2 ^ (-e).toNat
    sign.apply mag
  | _ => 0

/-- The conversion of a float to a duration; out of range it is the least one. -/
def durationOfFloat (x : Float) : Duration :=
  let z := truncFloat x
  if -2 ^ 63 ≤ z ∧ z < 2 ^ 63 then Int64.ofInt z else Int64.minValue

/-- The fraction behind the point: its digits, and the power of ten they are divided by. -/
def fracDigits (ds : Str) : Float × Float :=
  ds.foldl (fun p b => (p.1 * 10 + Float.ofNat (b.toNat - 48), p.2 * 10)) (0, 1)

def parseTerm (s : Str) : Option (Duration × Str) :=
  let whole := s.takeWhile isDigit
  let afterWhole := s.dropWhile isDigit
  let point := afterWhole.head? = some (Str.byte '.')
  let frac := if point then afterWhole.tail.takeWhile isDigit else []
  let rest := if point then afterWhole.tail.dropWhile isDigit else afterWhole
  if whole = [] ∧ frac = [] then none
  else
    let notUnit : UInt8 → Bool := fun b => isDigit b || b == Str.byte '.'
    let unit := rest.takeWhile fun b => !notUnit b
    match unitDuration unit with
    | none => none
    | some base =>
      let (f, div) := fracDigits frac
      let ns := (Float.ofInt (wrapDigits whole).toInt + f / div) * Float.ofInt base.toInt
      if ns.isInf ∨ ns.isNaN ∨ Float.ofInt (2 ^ 63 - 1) < ns ∨ ns < Float.ofInt (-2 ^ 63) then none
      else some (durationOfFloat ns, rest.dropWhile fun b => !notUnit b)

/-- The sum of the terms. A term takes at least a byte, so the length is fuel enough. -/
def parseTerms : Nat → Duration → Str → Option Duration
  | _, total, [] => some total
  | 0, _, _ :: _ => none
  | fuel + 1, total, s =>
    match parseTerm s with
    | none => none
    | some (part, rest) =>
      if (0 < part ∧ Int64.maxValue - part < total) ∨ (part < 0 ∧ total < Int64.minValue - part)
      then none
      else parseTerms fuel (total + part) rest

def parseDuration (s : Str) : Option Duration :=
  if s = [] then none
  else if s = lit "0" then some 0
  else
    let neg := s.head? = some (Str.byte '-')
    let body := if neg ∨ s.head? = some (Str.byte '+') then s.tail else s
    if body = [] then none
    else (parseTerms body.length 0 body).map fun total => if neg then -total else total

def parseInt64 (s : Str) : Option Int :=
  let neg := s.head? = some (Str.byte '-')
  let body := if neg ∨ s.head? = some (Str.byte '+') then s.tail else s
  if body = [] ∨ !body.all isDigit then none
  else
    let n : Int := body.foldl (fun n b => n * 10 + (b.toNat - 48 : Nat)) 0
    let z := if neg then -n else n
    if -2 ^ 63 ≤ z ∧ z < 2 ^ 63 then some z else none

def maxHeaderTTL : Duration := 365 * 24 * 3600 * second

/-- `headerTTL`: the duration an origin sends in a header. A bare integer counts seconds; a
value that is not positive or above a year is none. -/
def headerTTL (h : Option Header) (name : Str) : Option Duration :=
  match h with
  | none => none
  | some h =>
    let v := Str.trimSpace (h.get name)
    if v = [] then none
    else
      let d := match parseInt64 v with
        | some n => if n ≤ 0 ∨ (2 ^ 63 - 1) / 1000000000 < n then none
          else some (Int64.ofInt n * second)
        | none => parseDuration v
      d.filter fun d => decide (0 < d ∧ d ≤ maxHeaderTTL)

/-! ## What a header can yield -/

theorem headerTTL_carries {h : Header} {name : Str} {d : Duration}
    (hd : headerTTL (some h) name = some d) : h.get name ≠ [] := by
  intro hempty
  simp only [headerTTL, hempty] at hd
  cases hd

end Cadish
