/-!
# Errors

What a game, a player, a puzzle or the settings of a search may report: the kind of the error, and a text that says
more.  `Error.message` gives the text shown to the user.
-/

namespace TreeSearch

inductive Error where
  /-- A move that cannot be played. -/
  | illegalMove (text : String)
  /-- A puzzle that cannot be read. -/
  | invalidPuzzle (text : String)
  /-- Settings that cannot be used. -/
  | invalidConfiguration (text : String)
  deriving DecidableEq, Repr

def Error.message : Error → String
  | .illegalMove text => "Illegal move: " ++ text
  | .invalidPuzzle text => "Invalid puzzle: " ++ text
  | .invalidConfiguration text => "Invalid configuration: " ++ text

end TreeSearch
