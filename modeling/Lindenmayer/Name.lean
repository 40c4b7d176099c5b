import Std.Data.ExtTreeMap
import Std.Data.ExtTreeSet
import Lindenmayer.Sorting

/-!
# Symbol names

A name is the spelling of a symbol in a grammar.  The spelling alone decides whether the symbol
may be replaced (a variable) or not (a constant).  Names are ordered by code points, which is
also the order of their UTF-8 bytes; sets and maps of names are kept in that order.
-/

namespace Lindenmayer

/-- The spelling of a symbol. -/
structure Name where
  text : String
  deriving DecidableEq, Inhabited

namespace Name

/-- The characters of a name, first to last. -/
def chars (name : Name) : List Char := name.text.toList

/-- The name spelled by the given characters. -/
def ofChars (cs : List Char) : Name := ⟨String.ofList cs⟩

/-- The reserved spelling that stands for the absence of a symbol. -/
def empty : Name := ⟨""⟩

/-- Whether this is the reserved empty name. -/
def isEmpty (name : Name) : Bool := name.text.isEmpty

@[simp] theorem chars_ofChars (cs : List Char) : (ofChars cs).chars = cs := by
  simp [chars, ofChars]

@[simp] theorem ofChars_chars (name : Name) : ofChars name.chars = name := by
  simp [chars, ofChars]

theorem ext_chars {a b : Name} (h : a.chars = b.chars) : a = b := by
  rw [← ofChars_chars a, h, ofChars_chars]

instance : Ord Name := ⟨fun a b => compare a.text b.text⟩

theorem compare_def (a b : Name) : compare a b = compare a.text b.text := rfl

instance : Std.TransOrd Name where
  eq_swap {a b} := @Std.OrientedCmp.eq_swap String compare _ a.text b.text
  isLE_trans {a b c} := @Std.TransCmp.isLE_trans String compare _ a.text b.text c.text

instance : Std.LawfulEqOrd Name where
  eq_of_compare {a b} h := by
    have := Std.LawfulEqOrd.eq_of_compare (compare_def a b ▸ h)
    cases a; cases b; simp_all

/-- Spellings of replaceable symbols: they begin with an ASCII capital and do not end in an
underscore. -/
def spellsVariable : List Char → Bool
  | [] => false
  | c :: cs => c.isUpper && (c :: cs).getLast? != some '_'

/-- Whether the symbol may be replaced. -/
def isVariable (name : Name) : Bool := spellsVariable name.chars

/-- Every name that is not a variable is a constant. -/
def isConstant (name : Name) : Bool := !name.isVariable

/-- The names in order, repetitions kept. -/
def sort (names : List Name) : List Name := inOrder names

end Name

/-- A set of names, listed in the order of names. -/
abbrev NameSet := Std.ExtTreeSet Name compare

/-- A table keyed by names, listed in the order of names. -/
abbrev NameMap (β : Type) := Std.ExtTreeMap Name β compare

end Lindenmayer
