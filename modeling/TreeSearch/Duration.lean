/-!
# Durations

A duration is a number of whole seconds and a number of nanoseconds below `10 ^ 9`.
-/

namespace TreeSearch

structure Duration where
  secs : Nat
  nanos : Nat
  deriving DecidableEq, Repr

/-- The duration in seconds; both parts are rounded to floats before they are added. -/
def Duration.toSeconds (t : Duration) : Float := Float.ofNat t.secs + Float.ofNat t.nanos / 1000000000

end TreeSearch
