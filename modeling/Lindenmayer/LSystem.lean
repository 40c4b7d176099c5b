import Lindenmayer.Alphabet
import Lindenmayer.Lane
import Lindenmayer.Sampler

/-!
# L-systems

An L-system is a compiled grammar: an alphabet, a start symbol, and a table with the production of
each symbol that has one.  `derive` replaces every symbol of a word once.  A symbol is looked up
one counter level down, sees the symbol that stood before it in the old word, and is copied when
nothing can replace it.
-/

namespace Lindenmayer

/-- An alternative with symbols in place of names. -/
structure Choice where
  weight : Float
  catalyst : Option Symbol
  successors : List Symbol

/-- The choices for one symbol, with a sampler for each set of choices that can be open at once. -/
structure Production where
  choices : Array Choice
  /-- Draws among the choices without a catalyst. -/
  unconditional : Sampler
  /-- For each catalyst, in order, draws among its own choices and those without a catalyst. -/
  conditional : List (Symbol × Sampler)

namespace Choice

/-- Puts symbols for the names of an alternative.  A name that is not in the alphabet is an error
of the rule with the given predecessor. -/
def ofAlternative (alphabet : Alphabet) (rule : Name) (alternative : Alternative) :
    Except Error Choice := do
  let resolve (name : Name) : Except Error Symbol :=
    match alphabet.symbol? name with
    | some symbol => .ok symbol
    | none => .error (.undeclaredSymbol rule name)
  let catalyst ← alternative.catalyst.mapM resolve
  let successors ← alternative.successors.mapM resolve
  return ⟨alternative.weight, catalyst, successors⟩

/-- Whether the choice is open behind a given symbol; without one, only unconditional choices
are. -/
def isOpen (choice : Choice) (catalyst : Option Symbol) : Bool :=
  choice.catalyst.isNone || choice.catalyst == catalyst

/-- The positions and weights of the open choices.  Positions have no limit here; where they are
kept in 32 bits, they are the same as long as there are at most `2 ^ 32` choices. -/
def pool (choices : List Choice) (catalyst : Option Symbol) : List (Nat × Float) :=
  choices.zipIdx.filterMap fun (choice, index) =>
    if choice.isOpen catalyst then some (index, choice.weight) else none

end Choice

namespace Production

/-- Prepares the samplers for a list of choices. -/
def ofChoices (choices : List Choice) (tabulate : Bool) : Production :=
  let catalysts := (Symbol.sort (choices.filterMap Choice.catalyst)).eraseReps
  { choices := choices.toArray
    unconditional := Sampler.ofPool (Choice.pool choices none) tabulate
    conditional := catalysts.map fun catalyst =>
      (catalyst, Sampler.ofPool (Choice.pool choices (some catalyst)) tabulate) }

/-- Compiles a rule. -/
def ofRule (alphabet : Alphabet) (tabulate : Bool) (rule : Rule) : Except Error Production :=
  (rule.alternatives.mapM (Choice.ofAlternative alphabet rule.predecessor)).map fun choices =>
    ofChoices choices tabulate

/-- The sampler to use behind a given symbol. -/
def sampler (production : Production) (predecessor : Symbol) : Sampler :=
  match production.conditional.find? fun entry => entry.1 == predecessor with
  | some (_, sampler) => sampler
  | none => production.unconditional

/-- Draws the word that replaces the symbol behind a given one; `none` when no choice is open. -/
def draw {G : Type} [WordSource G] (production : Production) (predecessor : Symbol)
    (source : G) : Option (List Symbol) × G :=
  let (entry, source) := (production.sampler predecessor).sample source
  (entry.bind fun index => production.choices[index]?.map Choice.successors, source)

end Production

/-- A compiled grammar. -/
structure LSystem where
  alphabet : Alphabet
  /-- The production of each symbol, by slot. -/
  productions : Array (Option Production)
  /-- The symbol that growth starts from. -/
  start : Symbol
  /-- Whether the samplers use tables. -/
  tabulated : Bool

namespace LSystem

/-! ### Compiling -/

/-- Compiles the rule stored under a name. -/
def compileRule (alphabet : Alphabet) (tabulate : Bool) (entry : Name × Rule) :
    Except Error (Symbol × Production) :=
  match alphabet.symbol? entry.1 with
  | some symbol => (Production.ofRule alphabet tabulate entry.2).map fun production =>
      (symbol, production)
  | none => .error (.undeclaredSymbol entry.1 entry.1)

/-- Stores a production in the slot of its symbol. -/
def store (alphabet : Alphabet) (productions : Array (Option Production))
    (entry : Symbol × Production) : Array (Option Production) :=
  match alphabet.slot? entry.1 with
  | some slot => productions.setIfInBounds slot (some entry.2)
  | none => productions

/-- Compiles a grammar for growth from the symbol with the given name.  Of two rules whose names
mean the same symbol, the later one counts. -/
def compile (start : Name) (grammar : Grammar) (tabulate : Bool) : Except Error LSystem := do
  let alphabet ← Alphabet.build grammar
  match alphabet.symbol? start with
  | none => throw (.unknownAxiom start)
  | some symbol =>
    let compiled ← grammar.rules.toList.mapM (compileRule alphabet tabulate)
    return {
      alphabet := alphabet
      productions := compiled.foldl (store alphabet) (Array.replicate alphabet.slotCount none)
      start := symbol
      tabulated := tabulate }

/-! ### Derivation -/

/-- The production of a symbol. -/
def production? (system : LSystem) (symbol : Symbol) : Option Production :=
  (system.alphabet.slot? symbol).bind fun slot => system.productions[slot]?.join

/-- The word that replaces a symbol standing behind a given one. -/
def replacement {G : Type} [WordSource G] (system : LSystem) (predecessor symbol : Symbol)
    (source : G) : List Symbol × G :=
  let symbol := symbol.lowered
  match system.production? symbol with
  | some production =>
    let (chosen, source) := production.draw predecessor source
    (chosen.getD [symbol], source)
  | none => ([symbol], source)

/-- Appends the replacement of one symbol to a buffer. -/
def replaceSymbol {G : Type} [WordSource G] (system : LSystem) (predecessor symbol : Symbol)
    (output : Buffer) (source : G) : Buffer × G :=
  let (word, source) := system.replacement predecessor symbol source
  (output.append word, source)

/-- Replaces the symbols of a word that stands behind a given symbol, one after another. -/
def deriveBehind {G : Type} [WordSource G] (system : LSystem) (predecessor : Symbol) :
    List Symbol → Buffer → G → Buffer × G
  | [], output, source => (output, source)
  | symbol :: rest, output, source =>
    let (output, source) := system.replaceSymbol predecessor symbol output source
    deriveBehind system symbol rest output source

/-- Replaces every symbol of a word once, appending the results to a buffer.  The first symbol
stands behind the boundary. -/
def derive {G : Type} [WordSource G] (system : LSystem) (word : List Symbol) (output : Buffer)
    (source : G) : Buffer × G :=
  system.deriveBehind system.alphabet.boundary word output source

theorem deriveBehind_nil {G : Type} [WordSource G] (system : LSystem) (predecessor : Symbol)
    (output : Buffer) (source : G) :
    system.deriveBehind predecessor [] output source = (output, source) := rfl

theorem deriveBehind_cons {G : Type} [WordSource G] (system : LSystem)
    (predecessor symbol : Symbol) (rest : List Symbol) (output : Buffer) (source : G) :
    system.deriveBehind predecessor (symbol :: rest) output source =
      system.deriveBehind symbol rest
        (system.replaceSymbol predecessor symbol output source).1
        (system.replaceSymbol predecessor symbol output source).2 := rfl

/-! ### Listing -/

/-- The alternative that a choice was made from, with foreign symbols nameless. -/
def named (system : LSystem) (choice : Choice) : Alternative :=
  let name (symbol : Symbol) : Name := (system.alphabet.name? symbol).getD Name.empty
  ⟨choice.weight, choice.catalyst.map name, choice.successors.map name⟩

/-- Every symbol that has a production, with its name and production, by slot. -/
def rules (system : LSystem) : List (Symbol × Name × Production) :=
  system.alphabet.entries.filterMap fun (symbol, name) =>
    (system.production? symbol).map fun production => (symbol, name, production)

/-- One line of the listing: the quoted name, the alternatives, and a comma. -/
def listingLine (system : LSystem) (name : Name) (production : Production) : String :=
  "\"" ++ name.text ++ "\": " ++
    Alternative.textAll (production.choices.toList.map system.named) ++ ",\n"

/-- The productions in written form, one to a line. -/
def listing (system : LSystem) : String :=
  String.join (system.rules.map fun (_, name, production) => system.listingLine name production)

end LSystem

end Lindenmayer
