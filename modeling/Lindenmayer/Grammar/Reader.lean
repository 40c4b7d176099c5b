import Lindenmayer.Decimal.Numeral
import Lindenmayer.Grammar
import Lindenmayer.Text.Blank

/-!
# Reading grammars

The body of a rule is a list of alternatives with semicolons between them, each written as
`weight *catalyst successor successor ...` with blanks between the fields.  Line breaks are
dropped before anything else.  An alternative with a malformed weight or a bare asterisk for a
catalyst is left out, and the others stand.
-/

namespace Lindenmayer

namespace Alternative

/-- Weights that may be written in a grammar. -/
def isWritableWeight (weight : Float) : Bool := weight.isFinite && 0 ≤ weight

/-- The weight written by a field. -/
def weight? (field : List Char) : Option Float :=
  match Decimal.read? field with
  | some weight => if isWritableWeight weight then some weight else none
  | none => none

/-- Reads the fields after the weight. -/
def ofFields (weight : Float) : List (List Char) → Option Alternative
  | ['*'] :: _ => none
  | ('*' :: name) :: fields => some ⟨weight, some (Name.ofChars name), fields.map Name.ofChars⟩
  | fields => some ⟨weight, none, fields.map Name.ofChars⟩

/-- Reads one alternative; `none` when the group is blank or malformed. -/
def parse? (group : List Char) : Option Alternative :=
  match Text.fields group with
  | [] => none
  | field :: fields => (weight? field).bind fun weight => ofFields weight fields

/-- Whether a character breaks a line. -/
def isLineBreak (c : Char) : Bool := c == '\n' || c == '\r'

/-- Reads the alternatives of a rule body, given as characters. -/
def parseChars (cs : List Char) : List Alternative :=
  ((cs.filter fun c => !isLineBreak c).splitOn ';').filterMap parse?

/-- Reads the alternatives of a rule body. -/
def parseAll (text : String) : List Alternative := parseChars text.toList

end Alternative

/-- Reads names with blanks between them. -/
def Name.parseAll (text : String) : List Name := (Text.fields text.toList).map Name.ofChars

/-- Reads a grammar given as predecessors with rule bodies; a body in which no alternative
survives is an error. -/
def Grammar.parse (rules : List (Name × String)) : Except Error Grammar :=
  rules.foldlM
    (fun grammar (predecessor, body) =>
      (Rule.ofAlternatives predecessor (Alternative.parseAll body)).map grammar.insert)
    Grammar.empty

end Lindenmayer
