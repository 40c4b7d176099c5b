import Lindenmayer.Rule

/-!
# Grammars

A grammar declares variables and constants and stores rules by name.  `insert` keeps it tidy: the
rule lands under its own predecessor and everything it mentions is declared.  The parts may also
be filled by hand, so compilation checks them again.
-/

namespace Lindenmayer

/-- Declared names and the rule table. -/
structure Grammar where
  variableNames : NameSet
  constantNames : NameSet
  rules : NameMap Rule

namespace Grammar

/-- The grammar with no names and no rules. -/
def empty : Grammar := ⟨∅, ∅, ∅⟩

/-- Declares a name as a variable or a constant, by its spelling. -/
def declare (grammar : Grammar) (name : Name) : Grammar :=
  if name.isVariable then
    { grammar with variableNames := grammar.variableNames.insert name }
  else
    { grammar with constantNames := grammar.constantNames.insert name }

/-- Adds a rule and declares the names it mentions; an earlier rule for the same predecessor is
replaced. -/
def insert (grammar : Grammar) (rule : Rule) : Grammar :=
  let declared := rule.references.foldl declare grammar
  { declared with rules := declared.rules.insert rule.predecessor rule }

/-- The grammar made of the given rules, added in turn. -/
def ofRules (rules : List Rule) : Grammar := rules.foldl insert empty

/-- Whether the grammar declares a variable of this name. -/
def isVariable (grammar : Grammar) (name : Name) : Bool := grammar.variableNames.contains name

/-- Whether the grammar declares a constant of this name. -/
def isConstant (grammar : Grammar) (name : Name) : Bool := grammar.constantNames.contains name

/-- The number of rules. -/
def size (grammar : Grammar) : Nat := grammar.rules.size

/-- Whether there are no rules. -/
def isEmpty (grammar : Grammar) : Bool := grammar.rules.isEmpty

end Grammar

end Lindenmayer
