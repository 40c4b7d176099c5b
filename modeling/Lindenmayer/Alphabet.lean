import Lindenmayer.Grammar
import Lindenmayer.Name.Counter
import Lindenmayer.Symbol

/-!
# Alphabets

An alphabet assigns symbols to the names of a grammar and names to symbols.  Ordinary symbols are
numbered in the order variables, counter bases, constants, and last the reserved empty name; every
counter family then gets one symbol for each level from 1 to its highest declared level.  Each
symbol also has a slot, a position in a table with one entry per symbol: ordinary symbols come
first, by index, and the levels of each family follow in one block.
-/

namespace Lindenmayer

/-- The levels that belong to a counter family: the slot of level 1 and the highest level. -/
structure Family where
  firstSlot : Nat
  maxLevel : UInt8
  deriving DecidableEq

/-- The two-way mapping between names and symbols. -/
structure Alphabet where
  /-- The ordinary names, by index. -/
  names : Array Name
  /-- How many of the ordinary names are variables; these come first. -/
  variableCount : Nat
  /-- The counter family whose base is the ordinary name of the same index. -/
  families : Array (Option Family)
  /-- The counter symbols with their names, by slot. -/
  counters : Array (Symbol × Name)
  /-- The symbol of every known name. -/
  symbols : NameMap Symbol
  /-- The symbol of the empty name, which stands before the first symbol of a word. -/
  boundary : Symbol

namespace Alphabet

/-! ### Building -/

/-- The highest level declared for each counter base. -/
def counterLevels (names : NameSet) : NameMap UInt8 :=
  names.toList.foldl
    (fun levels name =>
      match name.counter? with
      | some (base, level) => levels.insert base (max level (levels[base]?.getD level))
      | none => levels)
    ∅

/-- Ordinary names registered so far, with the symbols of the names known so far. -/
structure Registry where
  names : Array Name
  symbols : NameMap Symbol

namespace Registry

/-- The registry without names. -/
def empty : Registry := ⟨#[], ∅⟩

/-- Gives a name the next ordinary symbol, unless it is known already. -/
def register (registry : Registry) (name : Name) : Registry :=
  if registry.symbols.contains name then
    registry
  else
    let symbol := Symbol.plain registry.names.size.toUInt16
    ⟨registry.names.push name, registry.symbols.insert name symbol⟩

theorem register_of_known {registry : Registry} {name : Name}
    (known : registry.symbols.contains name = true) : registry.register name = registry := by
  simp [register, known]

/-- Registers names one after another. -/
def registerAll (registry : Registry) (names : List Name) : Registry :=
  names.foldl register registry

end Registry

/-- The index of the ordinary symbol that a known name belongs to. -/
def familyIndex (symbols : NameMap Symbol) (name : Name) : UInt16 :=
  (symbols[name]?.getD (.plain 0)).family

/-- Counter families laid out so far. -/
structure Layout where
  families : Array (Option Family)
  counters : Array (Symbol × Name)
  symbols : NameMap Symbol

namespace Layout

/-- Before any family is laid out. -/
def start (registry : Registry) : Layout :=
  ⟨Array.replicate registry.names.size none, #[], registry.symbols⟩

/-- The levels from 1 to the given one. -/
def levelsUpTo (maxLevel : UInt8) : List UInt8 :=
  (List.range maxLevel.toNat).map fun i => (i + 1).toUInt8

/-- Adds one level of the family with the given base. -/
def addLevel (base : Name) (family : UInt16) : Layout → UInt8 → Layout
  | ⟨families, counters, symbols⟩, level =>
    let symbol := Symbol.counter family level
    let name := base.atLevel level
    ⟨families, counters.push (symbol, name), symbols.insert name symbol⟩

/-- Lays out the levels of one family behind `plainCount` ordinary slots and the families before
it. -/
def addFamily (plainCount : Nat) : Layout → Name → UInt8 → Layout
  | ⟨families, counters, symbols⟩, base, maxLevel =>
    let family := familyIndex symbols base
    let entry := some ⟨plainCount + counters.size, maxLevel⟩
    let placed := ⟨families.setIfInBounds family.toNat entry, counters, symbols⟩
    (levelsUpTo maxLevel).foldl (addLevel base family) placed

end Layout

/-- Makes other spellings of a counter, such as `S03`, mean its level. -/
def respell (symbols : NameMap Symbol) (name : Name) : NameMap Symbol :=
  match name.counter? with
  | some (base, level) => symbols.insert name (.counter (familyIndex symbols base) level)
  | none => symbols

/-- The first undeclared name that a rule mentions, in the order of rules. -/
def undeclared? (symbols : NameMap Symbol) (rules : List Rule) : Option Error :=
  rules.findSome? fun rule =>
    (rule.references.find? fun name => !symbols.contains name).map fun name =>
      .undeclaredSymbol rule.predecessor name

/-- Builds the alphabet of a grammar.  It fails when there are too many ordinary names, and
otherwise when a rule mentions a name that is not declared. -/
def build (grammar : Grammar) : Except Error Alphabet :=
  let levels := counterLevels grammar.variableNames
  let ordinary := grammar.variableNames.toList.filter fun name => name.counter?.isNone
  let replaceable := (Registry.empty.registerAll ordinary).registerAll levels.keys
  let plain := (replaceable.registerAll grammar.constantNames.toList).register Name.empty
  if maxPlainSymbols < plain.names.size then
    .error .alphabetOverflow
  else
    let layout := levels.toList.foldl
      (fun layout (base, maxLevel) => layout.addFamily plain.names.size base maxLevel)
      (Layout.start plain)
    let symbols := grammar.variableNames.toList.foldl respell layout.symbols
    match undeclared? symbols (grammar.rules.toList.map Prod.snd) with
    | some error => .error error
    | none => .ok
      { names := plain.names
        variableCount := replaceable.names.size
        families := layout.families
        counters := layout.counters
        symbols := symbols
        boundary := plain.symbols[Name.empty]?.getD (.plain 0) }

/-! ### Names to symbols -/

/-- The symbol of a name. -/
def symbol? (alphabet : Alphabet) (name : Name) : Option Symbol := alphabet.symbols[name]?

/-- The symbol of a name that has to be known. -/
def lookup (alphabet : Alphabet) (name : Name) : Except Error Symbol :=
  match alphabet.symbol? name with
  | some symbol => .ok symbol
  | none => .error (.unknownSymbol name)

/-- The symbols of names; the first unknown name is an error. -/
def encode (alphabet : Alphabet) (names : List Name) : Except Error (List Symbol) :=
  names.mapM alphabet.lookup

/-- Whether a name is that of a replaceable symbol. -/
def isVariable (alphabet : Alphabet) (name : Name) : Bool :=
  match alphabet.symbol? name with
  | some (.plain index) => index.toNat < alphabet.variableCount
  | some (.counter _ _) => true
  | none => false

/-- Whether a name is that of a symbol that is never replaced. -/
def isConstant (alphabet : Alphabet) (name : Name) : Bool :=
  match alphabet.symbol? name with
  | some (.plain index) => alphabet.variableCount ≤ index.toNat
  | _ => false

/-! ### Symbols to slots and names -/

/-- The family whose base has the given index. -/
def family? (alphabet : Alphabet) (index : UInt16) : Option Family :=
  alphabet.families[index.toNat]?.join

/-- The highest level of the family whose base has the given index. -/
def maxLevel? (alphabet : Alphabet) (index : UInt16) : Option UInt8 :=
  (alphabet.family? index).map Family.maxLevel

/-- The slot of a symbol of this alphabet. -/
def slot? (alphabet : Alphabet) : Symbol → Option Nat
  | .plain index => if index.toNat < alphabet.names.size then some index.toNat else none
  | .counter index level =>
    match alphabet.family? index with
    | some family =>
      if level = 0 ∨ family.maxLevel < level then none
      else some (family.firstSlot + level.toNat - 1)
    | none => none

/-- The number of slots, which is the number of symbols. -/
def slotCount (alphabet : Alphabet) : Nat := alphabet.names.size + alphabet.counters.size

/-- Whether the alphabet has no symbols at all. -/
def isEmpty (alphabet : Alphabet) : Bool := alphabet.slotCount == 0

/-- The name of a symbol; a counter level without a slot goes by the name of its base. -/
def name? (alphabet : Alphabet) (symbol : Symbol) : Option Name :=
  match symbol.isCounter, alphabet.slot? symbol with
  | true, some slot => alphabet.counters[slot - alphabet.names.size]?.map Prod.snd
  | _, _ => alphabet.names[symbol.family.toNat]?

/-- The name of the boundary. -/
def boundaryName (alphabet : Alphabet) : Name := (alphabet.name? alphabet.boundary).getD Name.empty

/-- The names of symbols; one that is foreign to the alphabet goes by the name of the boundary. -/
def decode (alphabet : Alphabet) (word : List Symbol) : List Name :=
  word.map fun symbol => (alphabet.name? symbol).getD alphabet.boundaryName

/-- Every symbol with its name, by slot. -/
def entries (alphabet : Alphabet) : List (Symbol × Name) :=
  alphabet.names.toList.mapIdx (fun index name => (Symbol.plain index.toUInt16, name)) ++
    alphabet.counters.toList

end Alphabet

end Lindenmayer
