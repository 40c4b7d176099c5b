import Lindenmayer.Proofs.LSystem.Determinacy
import Lindenmayer.Proofs.Sampler.Tables

/-!
# Systems with tables

Compiled with tables or without them, a grammar becomes a system with the same choices.  The
samplers differ: one with a table holds no choice that is open but too light for a place in it.
-/

namespace Lindenmayer

open Sampler

namespace LSystem

variable {start : Name} {grammar : Grammar} {plain tabulated : LSystem}
  {entries entries' : List (Symbol × Production)}

/-- A symbol has productions made of the same choices, with tables and without. -/
theorem Compiles.related_production? (compiles : Compiles start grammar false plain entries)
    (compiles' : Compiles start grammar true tabulated entries') (symbol : Symbol) :
    Option.Rel (fun production production' => ∃ choices,
        production = Production.ofChoices choices false ∧
          production' = Production.ofChoices choices true)
      (plain.production? symbol) (tabulated.production? symbol) := by
  have alphabets : plain.alphabet = tabulated.alphabet :=
    compiles.alphabet_eq.trans compiles'.alphabet_eq.symm
  cases found : plain.production? symbol with
  | none =>
    cases found' : tabulated.production? symbol with
    | none => exact .none
    | some production' =>
      obtain ⟨rule, listed, means, -⟩ := compiles'.production?_eq_some found'
      rw [← alphabets] at means
      exact absurd means (compiles.production?_eq_none found rule listed)
  | some production =>
    obtain ⟨key, rule, here, means, choices, related, rfl⟩ := compiles.lastFor found
    cases found' : tabulated.production? symbol with
    | none =>
      rw [alphabets] at means
      exact absurd means (compiles'.production?_eq_none found' (key, rule)
        (Std.ExtTreeMap.mem_toList_iff_getElem?_eq_some.mpr here.stored))
    | some production' =>
      obtain ⟨key', rule', there, -, choices', related', rfl⟩ := compiles'.lastFor found'
      rw [← alphabets] at there related'
      obtain rfl := here.unique there
      obtain rfl := Option.some.inj (here.stored.symm.trans there.stored)
      obtain rfl := List.right_unique_forall₂' Choice.Compiles.rightUnique related related'
      exact .some ⟨choices, rfl, rfl⟩

/-- Tables leave out only what is too light for them.  Without tables, a sampler holds the usable
entries of its pool.  With tables it holds the same ones, unless one of them comes to at least half
a place in the table: then it holds those that do, and can draw each of them.  So a grammar that is
compiled with tables keeps, for each symbol and behind each other one, all choices that it keeps
when it is compiled without, except those that come to less than half a place where another choice
comes to more. -/
theorem tables_keep_placed :
    (∀ pool, stored (ofPool pool false) = usable pool) ∧
    (∀ pool entry, entry ∈ stored (ofPool pool true) ↔
      entry ∈ stored (ofPool pool false) ∧ (placed pool = [] ∨ entry ∈ placed pool)) ∧
    (∀ pool, (stored (ofPool pool true)).length < 2 ^ 64 →
      ∀ entry ∈ placed pool, CanDraw (ofPool pool true) entry) ∧
    ∀ start grammar plain, compile start grammar false = .ok plain →
      ∃ tabulated, compile start grammar true = .ok tabulated ∧
        ∀ symbol, Option.Rel (fun production production' =>
            production'.choices = production.choices ∧ ∀ predecessor entry,
              entry ∈ stored (production'.sampler predecessor) ↔
                entry ∈ stored (production.sampler predecessor) ∧
                  (placed (Choice.pool production.choices.toList (some predecessor)) = [] ∨
                    entry ∈ placed (Choice.pool production.choices.toList (some predecessor))))
          (plain.production? symbol) (tabulated.production? symbol) := by
  have pools : ∀ pool entry, entry ∈ stored (ofPool pool true) ↔
      entry ∈ stored (ofPool pool false) ∧ (placed pool = [] ∨ entry ∈ placed pool) := by
    intro pool entry
    rw [stored_ofPool_false]
    exact mem_stored_ofPool_true_iff
  refine ⟨stored_ofPool_false, pools, ?draws, ?systems⟩
  case draws => exact fun pool fits entry member => canDraw_of_mem_placed member fits
  case systems =>
    intro start grammar plain compiled
    obtain ⟨tabulated, compiled'⟩ :=
      exists_compile_of_accepted (exists_compile_iff.mp ⟨plain, compiled⟩) true
    obtain ⟨entries, compiles⟩ := exists_compiles compiled
    obtain ⟨entries', compiles'⟩ := exists_compiles compiled'
    refine ⟨tabulated, compiled', fun symbol => ?_⟩
    have related := compiles.related_production? compiles' symbol
    generalize plain.production? symbol = found, tabulated.production? symbol = found' at related ⊢
    cases related with
    | none => exact .none
    | some made =>
      obtain ⟨choices, rfl, rfl⟩ := made
      refine .some ⟨rfl, fun predecessor entry => ?_⟩
      rw [Production.sampler_ofChoices, Production.sampler_ofChoices]
      exact pools _ entry

/-- Not every entry that is held without a table is held with one. -/
theorem not_tables_keep_every_entry : ¬∀ pool entry,
    entry ∈ stored (ofPool pool true) ↔ entry ∈ stored (ofPool pool false) := by
  intro same
  have lost : 0 ∉ stored (ofPool [(0, 1), (1, 4096)] true) := by decide +kernel
  have held : 0 ∈ stored (ofPool [(0, 1), (1, 4096)] false) := by decide +kernel
  exact lost ((same _ 0).mpr held)

/-- A rule with one alternative that is too light for a table next to the other one. -/
def lopsided : Rule :=
  ⟨⟨"A"⟩, [⟨1, none, [⟨"x"⟩]⟩, ⟨4096, none, [⟨"A"⟩, ⟨"A"⟩]⟩], List.cons_ne_nil _ _⟩

theorem tables_keep_placed_lopsided :
    (stored (ofPool [(0, 1), (1, 4096)] true)).length < 2 ^ 64 ∧
    CanDraw (ofPool [(0, 1), (1, 4096)] true) 1 ∧
    ∃ plain tabulated production production',
      compile ⟨"A"⟩ (Grammar.empty.insert lopsided) false = .ok plain ∧
      compile ⟨"A"⟩ (Grammar.empty.insert lopsided) true = .ok tabulated ∧
      plain.production? (.plain 0) = some production ∧
      tabulated.production? (.plain 0) = some production' ∧
      stored (production.sampler (.plain 0)) = [0, 1] ∧
      ∀ entry, entry ∈ stored (production'.sampler (.plain 0)) ↔ entry = 1 := by
  obtain ⟨held, kept, draws, systems⟩ := tables_keep_placed
  -- Of the two entries only the second one is held with a table, so it has a place.
  have both : stored (ofPool [(0, 1), (1, 4096)] false) = [0, 1] := by decide +kernel
  have second : ∀ entry ∈ stored (ofPool [(0, 1), (1, 4096)] true), entry = 1 := by decide +kernel
  have fits : (stored (ofPool [(0, 1), (1, 4096)] true)).length < 2 ^ 64 := by decide +kernel
  have there : 1 ∈ stored (ofPool [(0, 1), (1, 4096)] true) := by decide +kernel
  have place : 1 ∈ placed [(0, 1), (1, 4096)] := by
    refine ((kept _ _).mp there).2.resolve_left fun noPlaces => ?_
    have first := (kept [(0, 1), (1, 4096)] 0).mpr ⟨by rw [both]; decide, Or.inl noPlaces⟩
    exact absurd (second 0 first) (by decide)
  have evaluated : (compile ⟨"A"⟩ (Grammar.empty.insert lopsided) false).toOption.map
      (fun system => (system.production? (.plain 0)).map fun production =>
        (Choice.pool production.choices.toList (some (.plain 0)),
          stored (production.sampler (.plain 0)))) =
      some (some ([(0, 1), (1, 4096)], [0, 1])) := by decide +kernel
  obtain ⟨plain, compiled, read⟩ := exists_ok_of_toOption_map evaluated
  obtain ⟨production, found, facts⟩ := Option.map_eq_some_iff.mp read
  obtain ⟨pool, entries⟩ := Prod.mk.inj facts
  obtain ⟨tabulated, compiled', related⟩ := systems _ _ _ compiled
  have here := related (.plain 0)
  rw [found] at here
  cases found' : tabulated.production? (.plain 0) with
  | none => rw [found'] at here; cases here
  | some production' =>
    rw [found'] at here
    obtain ⟨-, samplers⟩ := Option.rel_some_some.mp here
    refine ⟨fits, draws _ fits 1 place, plain, tabulated, production, production', compiled,
      compiled', found, found', entries, fun entry => ?_⟩
    rw [samplers, pool, entries, ← both, ← kept]
    exact ⟨second entry, fun same => same ▸ there⟩

end LSystem

end Lindenmayer
