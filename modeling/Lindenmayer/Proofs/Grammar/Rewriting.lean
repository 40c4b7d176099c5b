import Lindenmayer.Grammar
import Lindenmayer.Name.Counter
import Lindenmayer.Sampler

/-!
# Rewriting names

Grammars can be read without an alphabet: a list of names is rewritten name by name, with rules
looked up by canonical spelling and alternatives drawn afresh from those that are open at the
place.  This is what a compiled system has to agree with.
-/

namespace Lindenmayer

/-- The name under which rules are looked up: a counter above level 1 goes one level down. -/
def Name.lowered (name : Name) : Name :=
  match name.counter? with
  | some (base, level) => if 1 < level then base.atLevel (level - 1) else name
  | none => name

/-- Whether the alternative may be used behind a name. -/
def Alternative.isOpenBehind (alternative : Alternative) (predecessor : Name) : Bool :=
  match alternative.catalyst with
  | some catalyst => catalyst.canonical == predecessor
  | none => true

/-- The positions and weights of the alternatives that may be used behind a name. -/
def Rule.poolBehind (rule : Rule) (predecessor : Name) : List (Nat × Float) :=
  rule.alternatives.zipIdx.filterMap fun (alternative, index) =>
    if alternative.isOpenBehind predecessor then some (index, alternative.weight) else none

variable {G : Type} [WordSource G]

/-- Draws the successors that the rule gives behind a name; `none` when no alternative is open. -/
def Rule.drawBehind (rule : Rule) (tabulate : Bool) (predecessor : Name) (source : G) :
    Option (List Name) × G :=
  let (entry, source) := (Sampler.ofPool (rule.poolBehind predecessor) tabulate).sample source
  (entry.bind fun index => rule.alternatives[index]?.map Alternative.successors, source)

namespace Grammar

/-- The rule stored under some spelling of a name. -/
def ruleNamed? (grammar : Grammar) (name : Name) : Option Rule :=
  (grammar.rules.toList.find? fun entry => entry.1.canonical == name).map Prod.snd

/-- Rewrites one name standing behind another.  A name for which there is nothing to draw stays,
one level down. -/
def rewriteName (grammar : Grammar) (tabulate : Bool) (predecessor name : Name) (source : G) :
    List Name × G :=
  match grammar.ruleNamed? name.lowered with
  | some rule =>
    match rule.drawBehind tabulate predecessor source with
    | (some successors, source) => (successors.map Name.canonical, source)
    | (none, source) => ([name.lowered], source)
  | none => ([name.lowered], source)

/-- Rewrites names one after another; each sees the one before it as it was. -/
def rewriteBehind (grammar : Grammar) (tabulate : Bool) : Name → List Name → G → List Name × G
  | _, [], source => ([], source)
  | predecessor, name :: rest, source =>
    let (names, source) := grammar.rewriteName tabulate predecessor name source
    let (more, source) := rewriteBehind grammar tabulate name rest source
    (names ++ more, source)

/-- Rewrites every name of a list once; the first one stands behind the empty name. -/
def rewrite (grammar : Grammar) (tabulate : Bool) (names : List Name) (source : G) :
    List Name × G :=
  grammar.rewriteBehind tabulate Name.empty names source

end Grammar

end Lindenmayer
