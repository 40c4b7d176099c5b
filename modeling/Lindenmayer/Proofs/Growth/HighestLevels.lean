import Lindenmayer.Proofs.Growth.Agreement
import Lindenmayer.Proofs.Growth.Closure
import Lindenmayer.Proofs.LSystem.Comparison

/-!
# Rules for highest levels

A counter is looked up one level down, and no generation holds a level above the highest one of its
family.  So the rule for the highest level of a family is never looked up, unless that level is the
only one.  Two grammars that differ in such rules alone cannot be told apart by their runs.
-/

namespace Lindenmayer

namespace LSystem

/-- The symbol is the highest level of its family, and not the only one. -/
def IsHighestLevel (alphabet : Alphabet) (symbol : Symbol) : Prop :=
  ∃ index highest, symbol = .counter index highest ∧
    alphabet.maxLevel? index = some highest ∧ 2 ≤ highest

/-- Looking a symbol of the alphabet up one level down never leads to a highest level. -/
theorem not_isHighestLevel_lowered {alphabet : Alphabet} {symbol : Symbol} {slot : Nat}
    (placed : alphabet.slot? symbol = some slot) : ¬IsHighestLevel alphabet symbol.lowered := by
  rintro ⟨index, highest, lowered, family, several⟩
  cases symbol with
  | plain _ => cases lowered
  | counter index' level =>
    obtain ⟨rfl, lower⟩ := Symbol.counter.inj lowered
    obtain ⟨highest', family', -, below⟩ := Alphabet.exists_slot?_counter_iff.mp ⟨slot, placed⟩
    obtain rfl : highest' = highest := Option.some.inj (family'.symm.trans family)
    rw [UInt8.le_iff_toNat_le] at several below
    split at lower
    · -- A level above 1 is looked up below itself, hence below the highest one.
      rename_i above
      have one : (1 : UInt8) ≤ level := UInt8.le_of_lt above
      have next := congrArg UInt8.toNat lower
      rw [UInt8.toNat_sub_of_le _ _ one, UInt8.toNat_one] at next
      rw [UInt8.lt_iff_toNat_lt, UInt8.toNat_one] at above
      omega
    · -- Level 1 is looked up as it is.
      rename_i least
      rw [UInt8.lt_iff_toNat_lt, UInt8.toNat_one] at least
      have equal := congrArg UInt8.toNat lower
      have two : (2 : UInt8).toNat = 2 := rfl
      omega

variable {start : Name} {grammar grammar' : Grammar} {tabulate : Bool} {system system' : LSystem}
  {entries entries' : List (Symbol × Production)}

/-- Systems whose grammars differ in rules for highest levels alone agree on the alphabet. -/
theorem Compiles.agreeOn (compiles : Compiles start grammar tabulate system entries)
    (compiles' : Compiles start grammar' tabulate system' entries')
    (names : grammar.SameNames grammar')
    (differ : ∀ key, grammar.rules[key]? ≠ grammar'.rules[key]? →
      ∃ symbol, system.alphabet.Means key symbol ∧ IsHighestLevel system.alphabet symbol) :
    AgreeOn (fun symbol => ∃ slot, system.alphabet.slot? symbol = some slot) system system' where
  prepared := compiles.prepared
  boundary_eq := by rw [compiles.alphabet_eq_of_sameNames compiles' names]
  start_eq := compiles.start_eq_of_sameNames compiles' names
  start := by
    have means := compiles.start
    rw [compiles.alphabet_eq] at means ⊢
    exact Alphabet.slot?_of_symbol? compiles.fits means
  closed := compiles.slot?_of_replaces
  replacement_eq := by
    intro G _ predecessor symbol source placed
    obtain ⟨slot, placed⟩ := placed
    have same : ∀ key, system.alphabet.Means key symbol.lowered →
        grammar.rules[key]? = grammar'.rules[key]? := by
      intro key means
      by_contra different
      obtain ⟨other, otherMeans, highest⟩ := differ key different
      obtain rfl : other = symbol.lowered := Option.some.inj (otherMeans.symm.trans means)
      exact not_isHighestLevel_lowered placed highest
    have alphabets := compiles.alphabet_eq_of_sameNames compiles' names
    simp only [replacement, compiles.production?_congr compiles' alphabets same]

end LSystem

namespace Growth

/-- The rules for the highest level of a family are without effect, if the family has more than one
level.  Runs of two grammars that declare the same names and differ in such rules alone cannot be
told apart, even where generations hold the highest level itself. -/
theorem highestLevel_rules_unused {start : Name} {grammar grammar' : Grammar}
    (names : grammar.SameNames grammar') {tabulate : Bool} {system system' : LSystem}
    (compiled : LSystem.compile start grammar tabulate = .ok system)
    (compiled' : LSystem.compile start grammar' tabulate = .ok system')
    (differ : ∀ key, grammar.rules[key]? ≠ grammar'.rules[key]? →
      ∃ symbol, system.alphabet.Means key symbol ∧ LSystem.IsHighestLevel system.alphabet symbol)
    {settings : Settings} (valid : settings.check = .ok ()) {seed : UInt64}
    (seeded : settings.seed = some seed) (fresh fresh' : UInt64) :
    ∃ growth growth', ofSystem system settings fresh = .ok growth ∧
      ofSystem system' settings fresh' = .ok growth' ∧ InUnison growth growth' := by
  obtain ⟨entries, compiles⟩ := LSystem.exists_compiles compiled
  obtain ⟨entries', compiles'⟩ := LSystem.exists_compiles compiled'
  exact exists_inUnison (compiles.agreeOn compiles' names differ) valid seeded fresh fresh'

/-- Growth starts from the highest level of a family, and every word put in place of it ends in that
level.  Its own rule is the given one. -/
def fromHighestLevel (rule : Rule) : Grammar where
  variableNames := .ofList (["A", "S2", "S3"].map Name.mk)
  constantNames := .ofList (["x"].map Name.mk)
  rules :=
    let lower : Rule :=
      ⟨⟨"S2"⟩, [⟨1, none, [⟨"A"⟩, ⟨"S3"⟩]⟩, ⟨1, none, [⟨"x"⟩, ⟨"S3"⟩]⟩], by simp⟩
    ((∅ : NameMap Rule).insert ⟨"S2"⟩ lower).insert ⟨"S3"⟩ rule

theorem fromHighestLevel_differ {rule rule' : Rule} {key : Name}
    (different : (fromHighestLevel rule).rules[key]? ≠ (fromHighestLevel rule').rules[key]?) :
    key = ⟨"S3"⟩ := by
  by_contra other
  have apart : compare (⟨"S3"⟩ : Name) key ≠ .eq := fun same =>
    other (Std.LawfulEqCmp.eq_of_compare same).symm
  simp [fromHighestLevel, Std.ExtTreeMap.getElem?_insert, apart] at different

theorem sameNames_fromHighestLevel (rule rule' : Rule) :
    (fromHighestLevel rule).SameNames (fromHighestLevel rule') := ⟨rfl, rfl⟩

theorem deletion_ne_nil : ([⟨1, none, []⟩] : List Alternative) ≠ [] := List.cons_ne_nil _ _

/-- A rule that deletes the highest level. -/
def deletingRule : Rule := ⟨⟨"S3"⟩, [⟨1, none, []⟩], deletion_ne_nil⟩

/-- A rule that doubles the highest level, or replaces it behind a certain symbol. -/
def doublingRule : Rule :=
  ⟨⟨"S3"⟩, [⟨2, none, [⟨"S3"⟩, ⟨"S3"⟩]⟩, ⟨1, some ⟨"A"⟩, [⟨"x"⟩]⟩], by simp⟩

/-- Whichever of the two rules the highest level has, growth from it is the same. -/
theorem highestLevel_rules_unused_fromHighestLevel :
    ∃ system system' growth growth',
      LSystem.compile ⟨"S3"⟩ (fromHighestLevel deletingRule) false = .ok system ∧
      LSystem.compile ⟨"S3"⟩ (fromHighestLevel doublingRule) false = .ok system' ∧
      system.start = .counter 1 3 ∧ system.alphabet.maxLevel? 1 = some 3 ∧
      threeLanes.check = .ok () ∧ threeLanes.seed = some 7 ∧
      ofSystem system threeLanes 0 = .ok growth ∧ ofSystem system' threeLanes 1 = .ok growth' ∧
      InUnison growth growth' ∧
      ((start system threeLanes 0).growTo 4 0).names =
        [⟨"A"⟩, ⟨"A"⟩, ⟨"x"⟩, ⟨"A"⟩, ⟨"S3"⟩] := by
  have evaluated : (LSystem.compile ⟨"S3"⟩ (fromHighestLevel deletingRule) false).toOption.map
      (fun system => (system.alphabet.symbol? ⟨"S3"⟩, system.start, system.alphabet.maxLevel? 1,
        ((start system threeLanes 0).growTo 4 0).names)) =
      some (some (.counter 1 3), .counter 1 3, some 3, [⟨"A"⟩, ⟨"A"⟩, ⟨"x"⟩, ⟨"A"⟩, ⟨"S3"⟩]) := by
    decide +kernel
  obtain ⟨system, compiled, read⟩ := exists_ok_of_toOption_map evaluated
  simp only [Prod.mk.injEq] at read
  obtain ⟨means, first, highest, names⟩ := read
  have evaluated' : (LSystem.compile ⟨"S3"⟩ (fromHighestLevel doublingRule) false).toOption.map
      (fun _ => ()) = some () := by decide +kernel
  obtain ⟨system', compiled', -⟩ := exists_ok_of_toOption_map evaluated'
  have differ : ∀ key, (fromHighestLevel deletingRule).rules[key]? ≠
      (fromHighestLevel doublingRule).rules[key]? →
        ∃ symbol, system.alphabet.Means key symbol ∧
          LSystem.IsHighestLevel system.alphabet symbol := by
    intro key different
    obtain rfl := fromHighestLevel_differ different
    exact ⟨.counter 1 3, means, 1, 3, rfl, highest, by decide⟩
  have valid : threeLanes.check = .ok () := rfl
  obtain ⟨growth, growth', started, started', unison⟩ := highestLevel_rules_unused
    (sameNames_fromHighestLevel _ _) compiled compiled' differ valid rfl 0 1
  exact ⟨system, system', growth, growth', compiled, compiled', first, highest, valid, rfl,
    started, started', unison, names⟩

end Growth

end Lindenmayer
