import Lindenmayer.Name

/-!
# Errors

Everything that can go wrong while a grammar is put together, compiled, or prepared for growth,
with the wording shown to the user.
-/

namespace Lindenmayer

/-- What makes run settings unusable. -/
inductive SettingsFault where
  | noLanes
  | noCapacity
  | primingPastThreshold (priming threshold : Nat)
  deriving DecidableEq

/-- A failure, by its cause. -/
inductive Error where
  | undeclaredSymbol (rule symbol : Name)
  | unknownAxiom (name : Name)
  | unknownSymbol (name : Name)
  | emptyRule (predecessor : Name)
  | alphabetOverflow
  | invalidSettings (fault : SettingsFault)
  deriving DecidableEq

/-- An alphabet holds at most this many ordinary symbols. -/
def maxPlainSymbols : Nat := 65536

/-- The reason given for refusing run settings. -/
def SettingsFault.message : SettingsFault → String
  | noLanes => "lane count must be at least 1"
  | noCapacity => "initial buffer capacity must be at least 1"
  | primingPastThreshold priming threshold =>
    "priming steps (" ++ toString priming ++ ") exceed the parallel threshold (" ++
      toString threshold ++ ")"

/-- The wording of a failure. -/
def Error.message : Error → String
  | undeclaredSymbol rule symbol =>
    "rule `" ++ rule.text ++ "` references undeclared symbol `" ++ symbol.text ++ "`"
  | unknownAxiom name => "axiom `" ++ name.text ++ "` is not part of the compiled alphabet"
  | unknownSymbol name => "symbol `" ++ name.text ++ "` is not part of the compiled alphabet"
  | emptyRule predecessor => "rule `" ++ predecessor.text ++ "` has no alternatives"
  | alphabetOverflow => "alphabet exceeds " ++ toString maxPlainSymbols ++ " plain symbols"
  | invalidSettings fault => "invalid run configuration: " ++ fault.message

end Lindenmayer
