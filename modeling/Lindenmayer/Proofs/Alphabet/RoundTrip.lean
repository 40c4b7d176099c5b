import Lindenmayer.Proofs.Alphabet.Entries
import Lindenmayer.Proofs.Grammar.Tidy

/-!
# Encoding and decoding undo each other

As long as no constant is spelled like a level, the name of a symbol means that symbol again, and a
list of names comes back with its levels in plain decimal.  No spelling of a level takes over the
name of another symbol: the names that are not levels are looked up as they were registered, and
those that are levels by family and level alone.
-/

namespace Lindenmayer.Alphabet

section

variable {grammar : Grammar} (fits : Fits grammar) (constants : OrdinaryConstants grammar)
include fits constants

/-- Decoding what some names mean puts them into their canonical spelling. -/
theorem decode_of_means {names : List Name} {word : List Symbol}
    (means : List.Forall₂ (assemble grammar).Means names word) :
    (assemble grammar).decode word = names.map Name.canonical := by
  induction means with
  | nil => rfl
  | @cons name symbol names word head _ ih =>
    have spelled := name?_of_symbol? fits constants head
    rw [List.map_cons, ← ih]
    simp [decode, spelled]

/-- The name that a symbol goes by means the symbol. -/
theorem Shows.means {name : Name} {symbol : Symbol}
    (shows : (assemble grammar).Shows name symbol) : (assemble grammar).Means name symbol := by
  obtain ⟨⟨slot, placed⟩, spelled⟩ := shows
  obtain ⟨listedName, listed⟩ := getElem?_entries_of_slot? fits placed
  rw [(slot?_of_getElem?_entries fits listed).2, Option.some.injEq] at spelled
  subst spelled
  by_cases ordinary : slot < (assemble grammar).names.size
  · rw [getElem?_entries_plain ordinary, Option.map_eq_some_iff] at listed
    obtain ⟨registered, found, equal⟩ := listed
    obtain ⟨rfl, rfl⟩ := Prod.mk.inj equal
    -- The registry knows the name, and no level is spelled like it.
    rw [Means, symbol?_ordinary fits (counter?_of_registered constants found)]
    exact ((indexed_plainRegistry grammar).lookup _ _).mpr ⟨slot, found, rfl⟩
  · rw [getElem?_entries_counter (Nat.le_of_not_lt ordinary)] at listed
    obtain ⟨base, level, allocated, rfl, rfl⟩ := exists_counter_of_getElem? fits listed
    exact symbol?_atLevel fits allocated

end

/-- Encoding and decoding are inverse to each other, up to the spelling of levels, wherever no
constant is spelled like a level.  Grammars that are put together by adding rules and declaring
names, and those that are read, have no such constants.  A name without a symbol is refused, and the
first one is reported. -/
theorem encode_decode_inverse :
    (∀ grammar : Grammar, grammar.Assembled → OrdinaryConstants grammar) ∧
    (∀ rules grammar, Grammar.parse rules = .ok grammar → OrdinaryConstants grammar) ∧
    ∀ grammar alphabet, build grammar = .ok alphabet → OrdinaryConstants grammar →
      (∀ symbol slot, alphabet.slot? symbol = some slot →
        ∃ name, alphabet.name? symbol = some name ∧ alphabet.symbol? name = some symbol) ∧
      (∀ word, (∀ symbol ∈ word, ∃ slot, alphabet.slot? symbol = some slot) →
        alphabet.encode (alphabet.decode word) = .ok word) ∧
      (∀ names word, alphabet.encode names = .ok word →
        alphabet.decode word = names.map Name.canonical) ∧
      (∀ names, (∃ error, alphabet.encode names = .error error) ↔
        ∃ name ∈ names, alphabet.symbol? name = none) ∧
      (∀ names error, alphabet.encode names = .error error ↔
        ∃ name, IsFirst (fun name => alphabet.symbol? name = none) names name ∧
          error = .unknownSymbol name) := by
  refine ⟨fun _ assembled => assembled.tidy.ordinaryConstants,
    fun _ _ read => (Grammar.assembled_parse read).tidy.ordinaryConstants, ?_⟩
  intro grammar alphabet built constants
  obtain ⟨fits, -, rfl⟩ := build_eq_ok_iff.mp built
  refine ⟨?symbols, ?words, ?names, fun _ => exists_encode_error_iff,
    fun _ _ => encode_eq_error_iff⟩
  case symbols =>
    intro symbol slot placed
    obtain ⟨name, spelled⟩ := name?_of_slot? fits placed
    exact ⟨name, spelled, Shows.means fits constants ⟨⟨slot, placed⟩, spelled⟩⟩
  case words =>
    intro word placed
    have shown := shows_decode fits placed
    exact encode_eq_ok_iff.mpr (shown.imp fun _ _ => Shows.means fits constants)
  case names =>
    intro names word encoded
    exact decode_of_means fits constants (encode_eq_ok_iff.mp encoded)

/-- Two families, one of them with a level that is spelled with a zero in front. -/
def respelled : Grammar :=
  ⟨.ofList (["A", "S3", "T2", "T01"].map Name.mk), .ofList (["["].map Name.mk), ∅⟩

theorem encode_decode_inverse_respelled :
    OrdinaryConstants respelled ∧ ∃ alphabet, build respelled = .ok alphabet ∧
      alphabet.slot? (.counter 1 3) = some 7 ∧
      (∃ name, alphabet.name? (.counter 1 3) = some name ∧
        alphabet.symbol? name = some (.counter 1 3)) ∧
      alphabet.encode (alphabet.decode [.counter 1 3, .counter 1 3]) =
        .ok [.counter 1 3, .counter 1 3] ∧
      (∃ word, alphabet.encode [⟨"T01"⟩, ⟨"["⟩, ⟨"S2"⟩] = .ok word ∧
        alphabet.decode word = [⟨"T1"⟩, ⟨"["⟩, ⟨"S2"⟩]) ∧
      alphabet.encode [⟨"T01"⟩, ⟨"S02"⟩, ⟨"Q"⟩] = .error (.unknownSymbol ⟨"S02"⟩) := by
  have constants : OrdinaryConstants respelled := by
    have checked : ∀ name ∈ respelled.constantNames.toList, name.counter? = none := by
      decide +kernel
    exact fun name member => checked name (Std.ExtTreeSet.mem_toList.mpr member)
  have evaluated : (build respelled).toOption.map (fun alphabet =>
      (alphabet.slot? (.counter 1 3), (alphabet.encode [⟨"T01"⟩, ⟨"["⟩, ⟨"S2"⟩]).isOk,
        alphabet.symbol? ⟨"T01"⟩, alphabet.symbol? ⟨"S02"⟩)) =
      some (some 7, true, some (.counter 2 1), none) := by decide +kernel
  obtain ⟨alphabet, built, read⟩ := exists_ok_of_toOption_map evaluated
  obtain ⟨placed, accepted, spelled, unknown⟩ : alphabet.slot? (.counter 1 3) = some 7 ∧
      (alphabet.encode [⟨"T01"⟩, ⟨"["⟩, ⟨"S2"⟩]).isOk = true ∧
      alphabet.symbol? ⟨"T01"⟩ = some (.counter 2 1) ∧ alphabet.symbol? ⟨"S02"⟩ = none := by
    simpa using read
  obtain ⟨symbols, words, names, -, errors⟩ :=
    encode_decode_inverse.2.2 respelled alphabet built constants
  refine ⟨constants, alphabet, built, placed, symbols _ _ placed, ?word, ?name, ?unknown⟩
  case word =>
    apply words
    intro symbol member
    obtain rfl : symbol = .counter 1 3 := by simpa using member
    exact ⟨7, placed⟩
  case name =>
    cases encoded : alphabet.encode [⟨"T01"⟩, ⟨"["⟩, ⟨"S2"⟩] with
    | error error => rw [encoded] at accepted; cases accepted
    | ok word => exact ⟨word, rfl, (names _ _ encoded).trans (by decide +kernel)⟩
  case unknown =>
    refine (errors _ _).mpr ⟨⟨"S02"⟩, .tail ?_ (.head unknown), rfl⟩
    simp [spelled]

end Lindenmayer.Alphabet
