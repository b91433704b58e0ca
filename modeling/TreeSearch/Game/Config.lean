import TreeSearch.Decimal.Shortest
import TreeSearch.Error

/-!
# Search settings

How deep a player searches, whether subtrees that cannot matter are cut off, and what a win is worth.  Only the
worth of a win can be wrong: `check` refuses one that is not finite or not positive.
-/

namespace TreeSearch

structure Config where
  maxDepth : Nat := 9
  pruning : Bool := true
  winScore : Float := 10
  deriving DecidableEq, Repr

namespace Config

/-- What is reported of a worth of a win that cannot serve as one. -/
def refusal (c : Config) : Error :=
  .invalidConfiguration ("win score must be finite and positive, got " ++ Decimal.shortest c.winScore)

def check (c : Config) : Except Error Unit :=
  if c.winScore.isFinite && 0 < c.winScore then .ok () else .error c.refusal

end Config

end TreeSearch
