import Lindenmayer.Decimal.Text
import Lindenmayer.Error

/-!
# Production rules

A rule lists the weighted alternatives that may replace one symbol.  An alternative with a
catalyst may be used only where that symbol stands immediately before the one replaced.  Rules are
written `weight *catalyst successor successor; weight successor ...`.
-/

namespace Lindenmayer

/-- One candidate replacement of a symbol; no successors means that the symbol is deleted. -/
structure Alternative where
  weight : Float
  catalyst : Option Name
  successors : List Name

namespace Alternative

/-- Whether the alternative needs a catalyst. -/
def isConditional (alternative : Alternative) : Bool := alternative.catalyst.isSome

/-- The written fields of an alternative: the weight, the catalyst behind an asterisk, and the
successors. -/
def fields (alternative : Alternative) : List String :=
  Decimal.text alternative.weight ::
    (alternative.catalyst.toList.map fun name => "*" ++ name.text) ++
      alternative.successors.map Name.text

/-- The written form of an alternative. -/
def text (alternative : Alternative) : String := " ".intercalate alternative.fields

/-- The names an alternative mentions: its catalyst, then its successors. -/
def references (alternative : Alternative) : List Name :=
  alternative.catalyst.toList ++ alternative.successors

/-- The written form of a list of alternatives. -/
def textAll (alternatives : List Alternative) : String := "; ".intercalate (alternatives.map text)

end Alternative

/-- The alternatives for one symbol, of which there is at least one. -/
structure Rule where
  predecessor : Name
  alternatives : List Alternative
  alternatives_ne_nil : alternatives ≠ []

namespace Rule

/-- Makes a rule, refusing an empty list of alternatives. -/
def ofAlternatives (predecessor : Name) (alternatives : List Alternative) : Except Error Rule :=
  match alternatives with
  | [] => .error (.emptyRule predecessor)
  | first :: rest => .ok ⟨predecessor, first :: rest, List.cons_ne_nil first rest⟩

/-- The names a rule mentions: its predecessor, then those of each alternative in turn. -/
def references (rule : Rule) : List Name :=
  rule.predecessor :: rule.alternatives.flatMap Alternative.references

/-- The written form of the alternatives of a rule. -/
def text (rule : Rule) : String := Alternative.textAll rule.alternatives

end Rule

end Lindenmayer
