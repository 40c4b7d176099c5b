import Lindenmayer.Sorting

/-!
# Symbols

A symbol is the compact identity of a name in an alphabet.  The levels of a counter family share
the index of the family's base, so a counter can be walked down without consulting the alphabet.
-/

namespace Lindenmayer

/-- A symbol: an ordinary variable or constant, or one level of a counter family. -/
inductive Symbol where
  | plain (index : UInt16)
  | counter (family : UInt16) (level : UInt8)
  deriving DecidableEq, Ord, Inhabited

namespace Symbol

/-- The index of the ordinary symbol this one belongs to. -/
def family : Symbol → UInt16
  | plain index => index
  | counter family _ => family

/-- Whether this is a level of a counter family. -/
def isCounter : Symbol → Bool
  | plain _ => false
  | counter _ _ => true

/-- The level of a counter. -/
def level? : Symbol → Option UInt8
  | plain _ => none
  | counter _ level => some level

/-- The symbol under which rules are looked up: counters above level 1 step down one level, and
all other symbols stay as they are. -/
def lowered : Symbol → Symbol
  | plain index => plain index
  | counter family level => counter family (if 1 < level then level - 1 else level)

@[simp] theorem lowered_plain (index : UInt16) : (plain index).lowered = plain index := rfl

@[simp] theorem family_lowered (symbol : Symbol) : symbol.lowered.family = symbol.family := by
  cases symbol <;> rfl

@[simp] theorem isCounter_lowered (symbol : Symbol) :
    symbol.lowered.isCounter = symbol.isCounter := by
  cases symbol <;> rfl

/-- Symbols are compared by their kind, then by their index, then by their level. -/
theorem compare_eq_compareLex : (compare : Symbol → Symbol → Ordering) =
    compareLex (compareOn isCounter)
      (compareLex (compareOn family) (compareOn fun symbol => symbol.level?.getD 0)) := by
  funext a b
  cases a with
  | plain index =>
    cases b with
    | plain index' =>
      show (compare index index').then .eq = (compare index index').then (compare 0 0)
      rw [Std.ReflOrd.compare_self]
    | counter => rfl
  | counter family level =>
    cases b with
    | plain => rfl
    | counter family' level' =>
      show (compare family family').then ((compare level level').then .eq) =
        (compare family family').then (compare level level')
      rw [Ordering.then_eq]

instance : Std.TransOrd Symbol := by
  rw [Std.TransOrd, compare_eq_compareLex]
  infer_instance

instance : Std.LawfulEqOrd Symbol where
  eq_of_compare {a b} same := by
    rw [compare_eq_compareLex] at same
    simp only [compareLex, compareOn, Ordering.then_eq_eq,
      Std.LawfulEqOrd.compare_eq_iff_eq] at same
    cases a <;> cases b <;> simp_all [isCounter, family, level?]

/-- The symbols in order: ordinary ones first, then counters by family and level. -/
def sort (symbols : List Symbol) : List Symbol := inOrder symbols

end Symbol

end Lindenmayer
