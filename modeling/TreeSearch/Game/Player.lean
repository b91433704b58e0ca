import TreeSearch.Game.Engine
import TreeSearch.Random.Index

/-!
# Players

A player answers a position with a move, with no move, or with an error, and may remember anything from one request
to the next: `ι` is the type of what it remembers.

* `Player.searching` searches as deep as its engine is set to, and remembers the engine.
* `Player.random` takes a legal move at random, and remembers the generator.
-/

namespace TreeSearch

structure Player (ι σ μ : Type) where
  name : String
  choose : σ → ι → Except Error (Option μ) × ι

namespace Player

variable {σ μ : Type}

def searching (name : String) : Player (Engine σ μ) σ μ where
  name
  choose s engine :=
    let (best, engine) := engine.bestMove s engine.config.maxDepth
    (best.map Prod.fst, engine)

def random (name : String) (g : Game σ μ) : Player Random.Generator σ μ where
  name
  choose s generator :=
    let (m, generator) := generator.pick (g.moves s)
    (.ok m, generator)

end Player

end TreeSearch
