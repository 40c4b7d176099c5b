import Lindenmayer.Proofs.Alphabet.Classification
import Lindenmayer.Proofs.LSystem.Derivability
import Lindenmayer.Random.WordList

/-!
# Counting down

A counter whose lower levels have no productions loses one level each time it is rewritten, without
a draw, until the production of level 1 is reached.  Level 1 is looked up for level 2 already, so
that a counter of level `n` is rewritten `n - 1` times.  What stands before the counter has no say
in this, and neither does what happens in the rest of the word.
-/

namespace Lindenmayer

namespace LSystem

variable {G : Type} [WordSource G]

/-- The word that a word becomes when it is rewritten behind each of the given symbols in turn, and
the source after that. -/
def passesBehind (system : LSystem) : List Symbol → List Symbol → G → List Symbol × G
  | [], word, source => (word, source)
  | predecessor :: later, word, source =>
    let (output, source) := system.deriveBehind predecessor word Buffer.unallocated source
    passesBehind system later output.toList source

theorem passesBehind_cons (system : LSystem) (predecessor : Symbol) (later word : List Symbol)
    (source : G) :
    system.passesBehind (predecessor :: later) word source =
      system.passesBehind later (system.replacementBehind predecessor word source).1
        (system.replacementBehind predecessor word source).2 := by
  obtain ⟨contents, sources⟩ :=
    system.deriveBehind_eq predecessor word Buffer.unallocated source
  rw [Buffer.toList_unallocated, List.nil_append] at contents
  show system.passesBehind later
    (system.deriveBehind predecessor word Buffer.unallocated source).1.toList
    (system.deriveBehind predecessor word Buffer.unallocated source).2 = _
  rw [contents, sources]

theorem passesBehind_append (system : LSystem) (earlier later word : List Symbol) (source : G) :
    system.passesBehind (earlier ++ later) word source =
      system.passesBehind later (system.passesBehind earlier word source).1
        (system.passesBehind earlier word source).2 := by
  induction earlier generalizing word source with
  | nil => rfl
  | cons predecessor earlier ih => exact ih _ _

theorem replacementBehind_append (system : LSystem) (predecessor : Symbol)
    (front back : List Symbol) (source : G) :
    system.replacementBehind predecessor (front ++ back) source =
      ((system.replacementBehind predecessor front source).1 ++
          (system.replacementBehind (front.getLastD predecessor) back
            (system.replacementBehind predecessor front source).2).1,
        (system.replacementBehind (front.getLastD predecessor) back
          (system.replacementBehind predecessor front source).2).2) := by
  induction front generalizing predecessor source with
  | nil => rfl
  | cons symbol front ih =>
    simp only [List.cons_append, replacementBehind, ih, List.append_assoc, List.getLastD_cons]

/-! ### One level at a time -/

theorem toNat_toUInt8 {level : Nat} (below : level ≤ 255) : level.toUInt8.toNat = level :=
  UInt8.toNat_ofNat_of_lt' (Nat.lt_succ_of_le below)

/-- A level above 1 is looked up one level down. -/
theorem lowered_counter (family : UInt16) {level : Nat} (above : 2 ≤ level)
    (below : level ≤ 255) :
    (Symbol.counter family level.toUInt8).lowered = .counter family (level - 1).toUInt8 := by
  have past : 1 < level.toUInt8 := by
    rw [UInt8.lt_iff_toNat_lt, toNat_toUInt8 below]
    exact above
  rw [Symbol.lowered, if_pos past]
  congr 1
  apply UInt8.toNat_inj.mp
  rw [UInt8.toNat_sub_of_le _ _ (UInt8.le_of_lt past), toNat_toUInt8 below,
    toNat_toUInt8 (by omega)]
  rfl

/-- No level of the family from 2 on and below `top` has a production. -/
def Unruled (system : LSystem) (family : UInt16) (top : UInt8) : Prop :=
  ∀ level, 2 ≤ level → level < top → system.production? (.counter family level) = none

section

variable {system : LSystem} {family : UInt16} {top : UInt8} (unruled : system.Unruled family top)
include unruled

/-- A counter above level 2 loses a level, wherever it stands. -/
theorem Unruled.replacement_eq {level : Nat} (above : 2 < level) (below : level ≤ top.toNat)
    (predecessor : Symbol) (source : G) :
    system.replacement predecessor (.counter family level.toUInt8) source =
      ([.counter family (level - 1).toUInt8], source) := by
  have bound := top.toNat_lt
  have value : (level - 1).toUInt8.toNat = level - 1 := toNat_toUInt8 (by omega)
  have found : system.production? (.counter family (level - 1).toUInt8) = none := by
    apply unruled
    · rw [UInt8.le_iff_toNat_le, value]
      show 2 ≤ level - 1
      omega
    · rw [UInt8.lt_iff_toNat_lt, value]
      omega
  rw [replacement, lowered_counter family (by omega) (by omega)]
  simp only [found]

/-- The countdown of a counter on its own, behind any symbols. -/
theorem Unruled.passesBehind_eq {level : Nat} (below : level ≤ top.toNat)
    (predecessors : List Symbol) (early : predecessors.length + 2 ≤ level) (source : G) :
    system.passesBehind predecessors [.counter family level.toUInt8] source =
      ([.counter family (level - predecessors.length).toUInt8], source) := by
  induction predecessors generalizing level with
  | nil => rfl
  | cons predecessor later ih =>
    rw [List.length_cons] at early ⊢
    have first := unruled.replacement_eq (by omega) below predecessor source
    have rest := @ih (level - 1) (by omega) (by omega)
    rw [passesBehind_cons]
    simp only [replacementBehind, first, List.append_nil, rest]
    congr 4
    omega

/-- A pass over a word takes a counter in it down a level and leaves its place to it. -/
theorem Unruled.pass_eq (level : Nat) (above : 2 < level) (below : level ≤ top.toNat)
    (prepared : system.Prepared) (front back : List Symbol) (source : G) :
    ∃ front' back', system.Derives front front' ∧ system.Derives back back' ∧
      (system.pass (front ++ .counter family level.toUInt8 :: back) source).1 =
        front' ++ .counter family (level - 1).toUInt8 :: back' := by
  have taken := unruled.replacement_eq above below (front.getLastD system.alphabet.boundary)
    (system.replacementBehind system.alphabet.boundary front source).2
  refine ⟨_, _, prepared.derives_replacementBehind system.alphabet.boundary front source,
    prepared.derives_replacementBehind (.counter family level.toUInt8) back
      (system.replacementBehind system.alphabet.boundary front source).2, ?_⟩
  rw [LSystem.pass_eq, replacementBehind_append]
  simp only [replacementBehind, taken, List.singleton_append]

theorem Unruled.passes_eq (prepared : system.Prepared) (count : Nat)
    (early : count + 2 ≤ top.toNat) (front back : List Symbol) (source : G) :
    ∃ front' back', system.DerivesIn front count front' ∧ system.DerivesIn back count back' ∧
      (system.passes count (front ++ .counter family top :: back) source).1 =
        front' ++ .counter family (top.toNat - count).toUInt8 :: back' := by
  induction count with
  | zero => exact ⟨front, back, .refl, .refl, by simp⟩
  | succ count ih =>
    obtain ⟨front', back', derivedFront, derivedBack, word⟩ := ih (by omega)
    obtain ⟨front'', back'', nextFront, nextBack, next⟩ := unruled.pass_eq (top.toNat - count)
      (by omega) (by omega) prepared front' back'
      (system.passes count (front ++ .counter family top :: back) source).2
    refine ⟨front'', back'', .step derivedFront nextFront, .step derivedBack nextBack, ?_⟩
    rw [passes_add, passes_succ, passes_zero, word, next]
    rfl

end

/-- Level 2 is replaced as level 1 is. -/
theorem replaceSymbol_two (system : LSystem) (predecessor : Symbol) (family : UInt16)
    (output : Buffer) (source : G) :
    system.replaceSymbol predecessor (.counter family 2) output source =
      system.replaceSymbol predecessor (.counter family 1) output source := rfl

end LSystem

/-! ### Spellings of counters -/

namespace Alphabet

variable {grammar : Grammar} {name base : Name}

theorem counter?_of_standsFor {level : UInt8} (stands : grammar.StandsFor name base level) :
    name.counter? = some (base, level) := by
  rcases stands with ⟨-, counter⟩ | isLevel
  · exact counter
  · obtain ⟨⟨highest, family, positive, -⟩, rfl⟩ := isLevelName_iff.mp isLevel
    exact Name.counter?_atLevel (isBase_of_highestLevel? family) positive

/-- A base and digits spell the level that the digits write, or the highest one. -/
theorem symbol?_of_digits (fits : Fits grammar) (isBase : base.IsBase) {digits : List Char}
    (nonempty : digits ≠ []) (all : ∀ c ∈ digits, c.isDigit = true)
    (spelled : name.chars = base.chars ++ digits) (positive : 1 ≤ Nat.ofDigitChars 10 digits 0) :
    (name ∈ grammar.variableNames → ∃ family,
      (assemble grammar).symbol? base = some (.plain family) ∧
      (assemble grammar).symbol? name =
        some (.counter family (min (Nat.ofDigitChars 10 digits 0) 255).toUInt8)) ∧
    ∀ family level, (assemble grammar).symbol? name = some (.counter family level) →
      (assemble grammar).symbol? base = some (.plain family) ∧
        level.toNat = min (Nat.ofDigitChars 10 digits 0) 255 := by
  have value := LSystem.toNat_toUInt8 (Nat.min_le_right (Nat.ofDigitChars 10 digits 0) 255)
  have counter := Name.counter?_of_digits isBase nonempty all spelled positive value
  constructor
  · intro declared
    have stands : grammar.StandsFor name base _ := Or.inl ⟨declared, counter⟩
    exact ⟨_, symbol?_of_mem_bases fits (mem_bases_of_standsFor stands),
      symbol?_of_standsFor fits stands⟩
  · intro family level lookup
    obtain ⟨base', stands, index⟩ := (symbol?_eq_counter_iff fits).mp lookup
    have same := counter?_of_standsFor stands
    rw [counter, Option.some.injEq] at same
    obtain ⟨rfl, rfl⟩ := Prod.mk.inj same
    exact ⟨index, value⟩

end Alphabet

namespace LSystem

variable {G : Type} [WordSource G]

/-- A counter counts down and ends in the production of level 1, if no level between has one.
Rewritten `k` times, where `k` is at most its level less 2, it is the level that is lower by `k`,
and nothing is drawn, whatever it stands behind each time; and so it is wherever it stands in a
longer word, which is derived around it.  The next time, it is replaced by what level 1 is replaced
by.  A name that consists of a base and digits means a counter whose level is the number written,
or 255 if that is less. -/
theorem counter_counts_down {start : Name} {grammar : Grammar} {tabulate : Bool}
    {system : LSystem} (compiled : compile start grammar tabulate = .ok system)
    {family : UInt16} {top : UInt8} (unruled : system.Unruled family top) :
    (∀ (predecessors : List Symbol) (source : G), predecessors.length + 2 ≤ top.toNat →
      system.passesBehind predecessors [.counter family top] source =
        ([.counter family (top.toNat - predecessors.length).toUInt8], source)) ∧
    (∀ (predecessors : List Symbol) (last : Symbol) (source : G),
      predecessors.length + 2 = top.toNat →
        system.passesBehind (predecessors ++ [last]) [.counter family top] source =
          system.replacement last (.counter family 1) source) ∧
    (∀ (predecessor : Symbol) (output : Buffer) (source : G),
      system.replaceSymbol predecessor (.counter family 2) output source =
        system.replaceSymbol predecessor (.counter family 1) output source) ∧
    (∀ (count : Nat) (front back : List Symbol) (source : G), count + 2 ≤ top.toNat →
      ∃ front' back', system.DerivesIn front count front' ∧ system.DerivesIn back count back' ∧
        (system.passes count (front ++ .counter family top :: back) source).1 =
          front' ++ .counter family (top.toNat - count).toUInt8 :: back') ∧
    ∀ (base name : Name) (digits : List Char), base.IsBase → digits ≠ [] →
      (∀ c ∈ digits, c.isDigit = true) → name.chars = base.chars ++ digits →
      2 ≤ Nat.ofDigitChars 10 digits 0 →
        (name ∈ grammar.variableNames → ∃ index,
          system.alphabet.symbol? base = some (.plain index) ∧
          system.alphabet.symbol? name =
            some (.counter index (min (Nat.ofDigitChars 10 digits 0) 255).toUInt8)) ∧
        (system.alphabet.symbol? name = some (.counter family top) →
          system.alphabet.symbol? base = some (.plain family) ∧
            top.toNat = min (Nat.ofDigitChars 10 digits 0) 255) := by
  obtain ⟨entries, compiles⟩ := exists_compiles compiled
  have alone : ∀ (predecessors : List Symbol) (source : G), predecessors.length + 2 ≤ top.toNat →
      system.passesBehind predecessors [.counter family top] source =
        ([.counter family (top.toNat - predecessors.length).toUInt8], source) := by
    intro predecessors source early
    have counted := unruled.passesBehind_eq (Nat.le_refl _) predecessors early source
    rwa [Nat.toUInt8_eq, UInt8.ofNat_toNat] at counted
  refine ⟨alone, ?last, fun predecessor output source => replaceSymbol_two system predecessor
    family output source, fun count front back source early =>
      unruled.passes_eq compiles.prepared count early front back source, ?spelled⟩
  case last =>
    intro predecessors last source exhausted
    have reached : top.toNat - predecessors.length = 2 := by omega
    rw [passesBehind_append, alone predecessors source (Nat.le_of_eq exhausted), reached,
      passesBehind_cons]
    exact Prod.ext (List.append_nil _) rfl
  case spelled =>
    intro base name digits isBase nonempty all spelled past
    rw [compiles.alphabet_eq]
    obtain ⟨declared, known⟩ := Alphabet.symbol?_of_digits compiles.fits isBase nonempty all
      spelled (by omega)
    exact ⟨declared, known family top⟩

/-- A seed with a counter that counts down to a choice between two productions, behind a leaf. -/
def sprouting : Grammar :=
  Grammar.ofRules
    [⟨⟨"Seed"⟩, [⟨1, none, [⟨"L"⟩, ⟨"S04"⟩]⟩], by simp⟩,
      ⟨⟨"S1"⟩, [⟨1, none, [⟨"X"⟩]⟩, ⟨1, some ⟨"L"⟩, [⟨"X"⟩, ⟨"X"⟩]⟩], by simp⟩]

theorem counter_counts_down_sprouting :
    ∃ system, compile ⟨"Seed"⟩ sprouting true = .ok system ∧
      system.Unruled 3 4 ∧ (system.production? (.counter 3 1)).isSome = true ∧
      (∀ source : WordList,
        system.passesBehind [.plain 0, .plain 2] [.counter 3 4] source = ([.counter 3 2], source) ∧
        system.passesBehind [.plain 0, .plain 2, .plain 0] [.counter 3 4] source =
          system.replacement (.plain 0) (.counter 3 1) source) ∧
      (∃ index, system.alphabet.symbol? ⟨"S"⟩ = some (.plain index) ∧
        system.alphabet.symbol? ⟨"S04"⟩ = some (.counter index 4)) ∧
      system.alphabet.symbol? ⟨"S04"⟩ = some (.counter 3 4) ∧
      system.alphabet.symbol? ⟨"S"⟩ = some (.plain 3) := by
  have evaluated : (compile ⟨"Seed"⟩ sprouting true).toOption.map (fun system =>
      ([1, 2, 3].map fun level => (system.production? (.counter 3 level)).isSome,
        system.alphabet.symbol? ⟨"S04"⟩)) =
      some ([true, false, false], some (.counter 3 4)) := by decide +kernel
  obtain ⟨system, compiled, read⟩ := exists_ok_of_toOption_map evaluated
  obtain ⟨ruled, spelled⟩ := Prod.mk.inj read
  simp only [List.map_cons, List.map_nil, List.cons.injEq, Option.isSome_eq_false_iff,
    Option.isNone_iff_eq_none, and_true] at ruled
  obtain ⟨first, second, third⟩ := ruled
  have unruled : system.Unruled 3 4 := by
    intro level above below
    rw [UInt8.le_iff_toNat_le] at above
    rw [UInt8.lt_iff_toNat_lt] at below
    have between : level = 2 ∨ level = 3 := by
      rcases Nat.lt_or_ge level.toNat 3 with two | three
      · exact .inl (UInt8.toNat_inj.mp (Nat.le_antisymm (Nat.le_of_lt_succ two) above))
      · exact .inr (UInt8.toNat_inj.mp (Nat.le_antisymm (Nat.le_of_lt_succ below) three))
    rcases between with rfl | rfl
    · exact second
    · exact third
  obtain ⟨early, last, -, -, spellings⟩ := counter_counts_down (G := WordList) compiled unruled
  obtain ⟨declared, known⟩ := spellings ⟨"S"⟩ ⟨"S04"⟩ ['0', '4'] ⟨by decide, by decide⟩ (by decide)
    (List.all_eq_true.mp rfl) (by decide) (by decide)
  exact ⟨system, compiled, unruled, first,
    fun source => ⟨early _ source (by decide), last [.plain 0, .plain 2] _ source (by decide)⟩,
    declared (Std.ExtTreeSet.mem_iff_contains.mpr (by decide +kernel)), spelled, (known spelled).1⟩

end LSystem

end Lindenmayer
