import TreeSearch.Decimal.Fixed
import TreeSearch.Duration
import TreeSearch.Game.Tally

/-!
# The report on a search

The tally of a search and the time it took, as text.  Seconds have three places and the rate has one.
-/

namespace TreeSearch.Tally

/-- Positions per second; no time gives the rate zero. -/
def nodesPerSecond (t : Tally) (time : Duration) : Float :=
  if time.toSeconds ≤ 0 then 0 else Float.ofNat t.nodes / time.toSeconds

def report (t : Tally) (time : Duration) : String :=
  "Minimax Search Statistics:\n" ++
  "- Nodes evaluated: " ++ toString t.nodes ++ "\n" ++
  "- Cutoffs: " ++ toString t.cutoffs ++ "\n" ++
  "- Depth cutoff reached: " ++ (if t.horizon then "true" else "false") ++ "\n" ++
  "- Total time: " ++ Decimal.fixed 3 time.toSeconds ++ " seconds\n" ++
  "- Nodes per second: " ++ Decimal.fixed 1 (t.nodesPerSecond time)

end TreeSearch.Tally
