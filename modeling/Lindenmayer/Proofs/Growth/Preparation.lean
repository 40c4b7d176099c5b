import Lindenmayer.Proofs.Growth.Operations
import Lindenmayer.Proofs.LSystem.Failures

/-!
# Preparing a run

A run is prepared by checking the settings, compiling the grammar, and checking the settings again,
which finds nothing new.  So there are two kinds of failure, and the settings come first.
-/

namespace Lindenmayer

namespace Settings

theorem check_eq_error_iff {settings : Settings} {error : Error} :
    settings.check = .error error ↔
      ∃ fault, settings.fault? = some fault ∧ error = .invalidSettings fault := by
  unfold check
  cases settings.fault? <;> simp [eq_comm]

end Settings

namespace Growth

theorem ofGrammar_of_check_error {settings : Settings} {error : Error}
    (unusable : settings.check = .error error) (start : Name) (grammar : Grammar)
    (fresh : UInt64) : ofGrammar start grammar settings fresh = .error error := by
  rw [ofGrammar, unusable]
  rfl

/-- With usable settings, a run can be prepared exactly when the grammar compiles. -/
theorem ofGrammar_of_check_ok {settings : Settings} (usable : settings.check = .ok ())
    (name : Name) (grammar : Grammar) (fresh : UInt64) :
    ofGrammar name grammar settings fresh =
      (LSystem.compile name grammar settings.tabulate).map fun system =>
        start system settings fresh := by
  simp only [ofGrammar, ofSystem, usable, bind, Except.bind]
  cases LSystem.compile name grammar settings.tabulate <;> rfl

/-- Which settings and grammars a run can be prepared from, and which error there is for all others.
Unusable settings come first, whatever the grammar is; a grammar is then refused or accepted as it
is by compilation on its own.  Once the alphabet is built, its names are the known ones, each of
them has a place in the table of productions, and every rule compiles: the check of references
leaves nothing for later passes to find but the start name and the names that rules are stored
under. -/
theorem ofGrammar_outcome (start : Name) (grammar : Grammar) (settings : Settings)
    (fresh : UInt64) :
    ((∃ fault, ofGrammar start grammar settings fresh = .error (.invalidSettings fault)) ↔
      settings.lanes = 0 ∨ settings.initialCapacity = 0 ∨
        settings.parallelThreshold < settings.primingSteps) ∧
    (settings.lanes ≠ 0 → settings.initialCapacity ≠ 0 →
      settings.primingSteps ≤ settings.parallelThreshold →
        (∀ error, ofGrammar start grammar settings fresh = .error error ↔
          grammar.Refused start error) ∧
        ((∃ growth, ofGrammar start grammar settings fresh = .ok growth) ↔
          grammar.Accepted start)) ∧
    (∀ tabulate,
      (∀ error, LSystem.compile start grammar tabulate = .error error ↔
        grammar.Refused start error) ∧
      ((∃ system, LSystem.compile start grammar tabulate = .ok system) ↔
        grammar.Accepted start)) ∧
    (∀ alphabet, Alphabet.build grammar = .ok alphabet →
      (∀ name, (∃ symbol, alphabet.symbol? name = some symbol) ↔ grammar.Knows name) ∧
      (∀ name symbol, alphabet.symbol? name = some symbol →
        ∃ slot, alphabet.slot? symbol = some slot) ∧
      (∀ rule ∈ grammar.rules.toList.map Prod.snd, ∀ tabulate,
        ∃ production, Production.ofRule alphabet tabulate rule = .ok production)) := by
  have prepared : settings.check = .ok () →
      (∀ error, ofGrammar start grammar settings fresh = .error error ↔
        grammar.Refused start error) ∧
      ((∃ growth, ofGrammar start grammar settings fresh = .ok growth) ↔
        grammar.Accepted start) := by
    intro usable
    have succeeds := @LSystem.exists_compile_iff grammar start settings.tabulate
    have fails := @LSystem.compile_eq_error_iff grammar start settings.tabulate
    simp only [ofGrammar_of_check_ok usable, ← succeeds, ← fails]
    cases LSystem.compile start grammar settings.tabulate <;> simp [Except.map]
  refine ⟨?unusable, ?usable, ?compilation, ?alphabet⟩
  case unusable =>
    cases checked : settings.check with
    | ok =>
      have conditions := Settings.check_eq_ok_iff.mp checked
      constructor
      · intro ⟨fault, failed⟩
        cases ((prepared checked).1 _).mp failed
      · omega
    | error error =>
      obtain ⟨fault, -, rfl⟩ := Settings.check_eq_error_iff.mp checked
      have unusable : ¬settings.check = .ok () := by simp [checked]
      rw [Settings.check_eq_ok_iff] at unusable
      constructor
      · omega
      · exact fun _ => ⟨fault, ofGrammar_of_check_error checked start grammar fresh⟩
  case usable =>
    intro lanes capacity priming
    exact prepared (Settings.check_eq_ok_iff.mpr ⟨lanes, capacity, priming⟩)
  case compilation =>
    intro tabulate
    exact ⟨fun _ => LSystem.compile_eq_error_iff, LSystem.exists_compile_iff⟩
  case alphabet =>
    intro alphabet built
    obtain ⟨room, closed, rfl⟩ := Alphabet.closed_of_build built
    have fits := Alphabet.fits_iff.mpr room
    refine ⟨fun _ => Alphabet.exists_symbol?_iff_knows fits,
      fun _ _ => Alphabet.slot?_of_symbol? fits, ?_⟩
    intro rule member tabulate
    exact Production.exists_ofRule fits (closed rule member) tabulate

/-- A rule that mentions a level and the base of its family. -/
def sprout : Rule := ⟨⟨"A"⟩, [⟨1, none, [⟨"A"⟩, ⟨"S2"⟩, ⟨"S"⟩]⟩], by simp⟩

/-- A grammar in which the rule is stored under its own predecessor and under a name that is not
declared. -/
def misfiled : Grammar :=
  ⟨.ofList (["A", "S2"].map Name.mk), ∅, .ofList [(Name.mk "X", sprout), (Name.mk "A", sprout)]⟩

theorem ofGrammar_outcome_misfiled :
    Settings.default.lanes ≠ 0 ∧ misfiled.HasRoom ∧ misfiled.Closed ∧ misfiled.Knows ⟨"A"⟩ ∧
      ofGrammar ⟨"A"⟩ misfiled Settings.default 0 = .error (.undeclaredSymbol ⟨"X"⟩ ⟨"X"⟩) ∧
      ∃ alphabet, Alphabet.build misfiled = .ok alphabet ∧ alphabet.symbol? ⟨"X"⟩ = none := by
  have rules : misfiled.rules.toList = [(⟨"A"⟩, sprout), (⟨"X"⟩, sprout)] := by rfl
  have room : misfiled.HasRoom := by
    rw [Grammar.HasRoom]
    decide +kernel
  have evaluated : (Alphabet.build misfiled).toOption.map (fun alphabet =>
      (alphabet.symbol? ⟨"A"⟩, alphabet.symbol? ⟨"X"⟩)) = some (some (.plain 0), none) := by
    decide +kernel
  obtain ⟨alphabet, built, read⟩ := exists_ok_of_toOption_map evaluated
  obtain ⟨known, unknown⟩ : alphabet.symbol? ⟨"A"⟩ = some (.plain 0) ∧
      alphabet.symbol? ⟨"X"⟩ = none := by simpa using read
  obtain ⟨-, closed, -⟩ := Alphabet.closed_of_build built
  obtain ⟨-, prepared, -, names⟩ := ofGrammar_outcome ⟨"A"⟩ misfiled Settings.default 0
  have knows := (names alphabet built).1
  have start : misfiled.Knows ⟨"A"⟩ := (knows _).mp ⟨_, known⟩
  have stranger : ¬misfiled.Knows ⟨"X"⟩ := by
    rw [← knows]
    simp [unknown]
  refine ⟨by decide, room, closed, start, ?_, alphabet, built, unknown⟩
  have first : IsFirst (fun entry => ¬misfiled.Knows entry.1) misfiled.rules.toList
      (⟨"X"⟩, sprout) := by
    rw [rules]
    exact .tail (not_not.mpr start) (.head stranger)
  exact ((prepared (by decide) (by decide) (by decide)).1 _).mpr (.key room closed start first)

end Growth

end Lindenmayer
