import Mathlib.Logic.Basic

/-!
# Instants and durations

Instants are nanoseconds on an unbounded line. A duration is a signed 64-bit count of
nanoseconds: a sum of durations wraps around, adding a duration to an instant does not.
-/

namespace Cadish

abbrev Instant := Int

abbrev Duration := Int64

def Instant.add (t : Instant) (d : Duration) : Instant := t + d.toInt

def second : Duration := 1000000000

end Cadish
