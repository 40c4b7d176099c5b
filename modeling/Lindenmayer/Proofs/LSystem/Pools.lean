import Lindenmayer.Proofs.LSystem.Productions

/-!
# Prepared pools

A production keeps a sampler for each catalyst of its rule, and one more for all other symbols.
Whichever of them is found behind a symbol, it is the sampler of the alternatives that are open
behind this symbol, as if they had just been picked out of the rule.
-/

namespace Lindenmayer

/-! ### Open alternatives -/

/-- Whether an alternative may be used behind a symbol: it needs no catalyst, or its catalyst means
this symbol. -/
def Alternative.isOpen (alphabet : Alphabet) (predecessor : Symbol) (alternative : Alternative) :
    Bool :=
  alternative.catalyst.all fun name => alphabet.symbol? name == some predecessor

/-- The positions and weights of the alternatives that may be used behind a symbol, in order. -/
def Rule.openEntries (rule : Rule) (alphabet : Alphabet) (predecessor : Symbol) :
    List (Nat × Float) :=
  rule.alternatives.zipIdx.filterMap fun (alternative, index) =>
    if alternative.isOpen alphabet predecessor then some (index, alternative.weight) else none

namespace Choice

variable {alphabet : Alphabet} {predecessor : Symbol}

theorem isOpen_some_iff {choice : Choice} :
    choice.isOpen (some predecessor) = true ↔
      choice.catalyst = none ∨ choice.catalyst = some predecessor := by
  simp [isOpen]

/-- An alternative is open exactly if its choice is. -/
theorem Compiles.isOpen_eq {alternative : Alternative} {choice : Choice}
    (compiles : Choice.Compiles alphabet alternative choice) :
    choice.isOpen (some predecessor) = alternative.isOpen alphabet predecessor := by
  obtain ⟨weight, catalyst, successors⟩ := alternative
  obtain ⟨weight', catalyst', successors'⟩ := choice
  have related := compiles.catalyst
  dsimp only at related
  cases related with
  | none => rfl
  | some means =>
    rw [Alphabet.Means] at means
    simp [isOpen, Alternative.isOpen, means]

theorem pool_eq_openEntries {rule : Rule} {choices : List Choice}
    (compiles : List.Forall₂ (Choice.Compiles alphabet) rule.alternatives choices) :
    pool choices (some predecessor) = rule.openEntries alphabet predecessor :=
  pool_eq_of_compiles compiles fun compiled => compiled.isOpen_eq

/-- The entries of a pool are the open choices, by position and weight. -/
theorem mem_pool {choices : List Choice} {catalyst : Option Symbol} {index : Nat} {weight : Float} :
    (index, weight) ∈ pool choices catalyst ↔
      ∃ choice, choices[index]? = some choice ∧ choice.isOpen catalyst = true ∧
        choice.weight = weight := by
  simp only [pool, List.mem_filterMap, Prod.exists, Option.ite_none_right_eq_some,
    Option.some.injEq, Prod.mk.injEq, List.mk_mem_zipIdx_iff_getElem?]
  constructor
  · rintro ⟨choice, _, found, isOpen, rfl, rfl⟩
    exact ⟨choice, found, isOpen, rfl⟩
  · rintro ⟨choice, found, isOpen, rfl⟩
    exact ⟨choice, index, found, isOpen, rfl, rfl⟩

/-- A pool whose positions are kept in words of 32 bits. -/
def inWords (pool : List (Nat × Float)) : List (Nat × Float) :=
  pool.map fun entry => (entry.1.toUInt32.toNat, entry.2)

/-- The positions of at most `2 ^ 32` choices fit into words. -/
theorem inWords_pool {choices : List Choice} (few : choices.length ≤ UInt32.size)
    (catalyst : Option Symbol) : inWords (pool choices catalyst) = pool choices catalyst := by
  unfold inWords
  conv_rhs => rw [← List.map_id (pool choices catalyst)]
  apply List.map_congr_left
  rintro ⟨index, weight⟩ member
  obtain ⟨choice, found, -⟩ := mem_pool.mp member
  have inside := (List.getElem?_eq_some_iff.mp found).1
  have fits : index.toUInt32.toNat = index := by
    rw [Nat.toUInt32_eq, UInt32.toNat_ofNat', Nat.mod_eq_of_lt (inside.trans_le few)]
  rw [fits]
  rfl

/-- Pools list positions in order. -/
theorem pairwise_pool (choices : List Choice) (catalyst : Option Symbol) :
    (pool choices catalyst).Pairwise fun entry later => entry.1 < later.1 := by
  have ordered : choices.zipIdx.Pairwise fun entry later => entry.2 < later.2 := by
    have positions : (choices.zipIdx.map Prod.snd).Pairwise (· < ·) := by
      rw [List.zipIdx_map_snd]
      exact List.pairwise_lt_range'
    exact List.pairwise_map.mp positions
  refine ordered.filterMap _ ?_
  rintro ⟨choice, index⟩ ⟨choice', index'⟩ less _ kept _ kept'
  simp only [Option.ite_none_right_eq_some, Option.some.injEq] at kept kept'
  obtain ⟨-, rfl⟩ := kept
  obtain ⟨-, rfl⟩ := kept'
  exact less

/-- Behind a symbol nothing is lost of what is open without a catalyst. -/
theorem sublist_pool (choices : List Choice) (predecessor : Symbol) :
    (pool choices none).Sublist (pool choices (some predecessor)) := by
  unfold pool
  induction choices.zipIdx with
  | nil => exact List.Sublist.refl _
  | cons entry rest ih =>
    rw [List.filterMap_cons, List.filterMap_cons]
    cases catalyst : entry.1.catalyst with
    | none => simpa [isOpen, catalyst] using ih
    | some symbol =>
      by_cases same : symbol = predecessor
      · simpa [isOpen, catalyst, same] using ih.cons _
      · simpa [isOpen, catalyst, same] using ih

end Choice

namespace Production

/-- The prepared samplers are those that picking out the open alternatives makes.  Behind a symbol,
these are the alternatives without a catalyst and those whose catalyst is this symbol, in order: a
catalyst that matches adds to what is open without one and takes nothing away, and other catalysts
play no part.  It does not matter in which order, or how often, the table lists the catalysts. -/
theorem sampler_eq_ofPool_openEntries {alphabet : Alphabet} {tabulate : Bool} {rule : Rule}
    {production : Production} (compiled : ofRule alphabet tabulate rule = .ok production)
    (predecessor : Symbol) :
    List.Forall₂ (Choice.Compiles alphabet) rule.alternatives production.choices.toList ∧
    production.sampler predecessor =
      Sampler.ofPool (rule.openEntries alphabet predecessor) tabulate ∧
    (∀ index weight, (index, weight) ∈ rule.openEntries alphabet predecessor ↔
      ∃ choice, production.choices[index]? = some choice ∧
        (choice.catalyst = none ∨ choice.catalyst = some predecessor) ∧
          choice.weight = weight) ∧
    ((rule.openEntries alphabet predecessor).Pairwise fun entry later => entry.1 < later.1) ∧
    production.unconditional =
      Sampler.ofPool (Choice.pool production.choices.toList none) tabulate ∧
    (Choice.pool production.choices.toList none).Sublist
      (rule.openEntries alphabet predecessor) ∧
    ∀ catalysts : List Symbol,
      (∀ symbol, symbol ∈ catalysts ↔
        ∃ choice ∈ production.choices.toList, choice.catalyst = some symbol) →
      production.sampler predecessor =
        sampler { production with conditional := catalysts.map fun catalyst =>
          (catalyst, Sampler.ofPool (rule.openEntries alphabet catalyst) tabulate) }
          predecessor := by
  obtain ⟨choices, related, rfl⟩ := ofRule_eq_ok_iff.mp compiled
  have pools : ∀ symbol, Choice.pool choices (some symbol) = rule.openEntries alphabet symbol :=
    fun _ => Choice.pool_eq_openEntries related
  have prepared := sampler_ofChoices choices tabulate predecessor
  refine ⟨related, ?_, ?entries, ?order, rfl, ?additive, ?table⟩
  · rw [prepared, pools]
  case entries =>
    intro index weight
    rw [← pools, Choice.mem_pool]
    simp only [ofChoices, List.getElem?_toArray, Choice.isOpen_some_iff]
  case order =>
    rw [← pools]
    exact Choice.pairwise_pool choices (some predecessor)
  case additive =>
    rw [← pools]
    exact Choice.sublist_pool choices predecessor
  case table =>
    intro catalysts listed
    simp only [← pools]
    rw [prepared]
    refine (sampler_of_table ?_ rfl rfl predecessor).symm
    intro symbol
    rw [listed, List.mem_filterMap]
    rfl

/-- A rule with one catalyst in two spellings, and with the empty name for a catalyst. -/
def spelledTwice : Rule where
  predecessor := ⟨"A"⟩
  alternatives := [⟨1, none, [⟨"B"⟩]⟩, ⟨2, some ⟨"S2"⟩, [⟨"x"⟩]⟩, ⟨3, some ⟨"B"⟩, []⟩,
    ⟨4, some ⟨"S02"⟩, [⟨"A"⟩]⟩, ⟨0, none, []⟩, ⟨6, some ⟨""⟩, [⟨"x"⟩]⟩]
  alternatives_ne_nil := by simp

theorem sampler_eq_ofPool_openEntries_spelledTwice :
    ∃ alphabet production, Alphabet.build (Grammar.empty.insert spelledTwice) = .ok alphabet ∧
      ofRule alphabet true spelledTwice = .ok production ∧
      production.sampler (.counter 2 2) =
        Sampler.ofPool [(0, 1), (1, 2), (3, 4), (4, 0)] true ∧
      production.sampler alphabet.boundary = Sampler.ofPool [(0, 1), (4, 0), (5, 6)] true ∧
      production.sampler (.plain 999) = Sampler.ofPool [(0, 1), (4, 0)] true := by
  have evaluated : (Alphabet.build (Grammar.empty.insert spelledTwice)).toOption.map
      (fun alphabet => ((ofRule alphabet true spelledTwice).isOk,
        [.counter 2 2, alphabet.boundary, .plain 999].map
          (spelledTwice.openEntries alphabet))) =
      some (true, [[(0, 1), (1, 2), (3, 4), (4, 0)], [(0, 1), (4, 0), (5, 6)],
        [(0, 1), (4, 0)]]) := by decide +kernel
  obtain ⟨alphabet, built, read⟩ := exists_ok_of_toOption_map evaluated
  obtain ⟨accepted, entries⟩ := Prod.mk.inj read
  simp only [List.map_cons, List.map_nil, List.cons.injEq, and_true] at entries
  obtain ⟨level, boundary, foreign⟩ := entries
  cases compiled : ofRule alphabet true spelledTwice with
  | error error => rw [compiled] at accepted; cases accepted
  | ok production =>
    have found := fun predecessor => (sampler_eq_ofPool_openEntries compiled predecessor).2.1
    refine ⟨alphabet, production, built, compiled, ?_, ?_, ?_⟩
    · rw [found, level]
    · rw [found, boundary]
    · rw [found, foreign]

end Production

/-- If no rule of a grammar has more than `2 ^ 32` alternatives, its samplers are those that are
made of positions in words of 32 bits. -/
theorem LSystem.Compiles.sampler_eq_ofPool_inWords {start : Name} {grammar : Grammar}
    {tabulate : Bool} {system : LSystem} {entries : List (Symbol × Production)}
    (compiles : Compiles start grammar tabulate system entries)
    (few : ∀ rule ∈ grammar.rules.toList, rule.2.alternatives.length ≤ UInt32.size)
    {symbol : Symbol} {production : Production}
    (found : system.production? symbol = some production) (predecessor : Symbol) :
    production.sampler predecessor =
      Sampler.ofPool (Choice.inWords (Choice.pool production.choices.toList (some predecessor)))
        tabulate := by
  obtain ⟨rule, listed, -, choices, related, rfl⟩ := compiles.production?_eq_some found
  have fits : choices.length ≤ UInt32.size := related.length_eq ▸ few rule listed
  show _ = Sampler.ofPool (Choice.inWords (Choice.pool choices (some predecessor))) tabulate
  rw [Choice.inWords_pool fits, Production.sampler_ofChoices]

end Lindenmayer
