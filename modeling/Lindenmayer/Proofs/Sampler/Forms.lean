import Lindenmayer.Proofs.Sampler.Shares

/-!
# The forms of samplers

The form of a sampler that is prepared for a pool tells how many entries of the pool are usable.
Where there are several, it holds all of them in order, with one running total for each, or a table
with one run of places for each.  A run may be empty, and if all of them are, running totals take
the place of the table.
-/

namespace Lindenmayer.Sampler

open Decimal

/-! ### Runs -/

/-- Entries in a row, each repeated as often as its count says. -/
def runs (entries counts : List Nat) : List Nat :=
  (List.zipWith (fun entry count => List.replicate count entry) entries counts).flatten

/-- A table is made of one run for each entry. -/
theorem tableEntries_eq_runs (pool : List (Nat × Float)) :
    tableEntries pool =
      runs (pool.map Prod.fst) (pool.map fun entry => copies (totalWeight pool) entry.2) := by
  rw [runs, List.zipWith_map, List.zipWith_self, tableEntries, List.flatMap_def]

/-- Several entries that are usable have running totals or a table. -/
theorem ofPool_of_several {pool : List (Nat × Float)} (several : 2 ≤ (usable pool).length)
    (tabulate : Bool) :
    (∃ totals, ofPool pool tabulate = cumulative (usable pool).toArray totals ∧
      totals.size = (usable pool).length) ∨
    tabulate = true ∧ ∃ counts, counts.length = (usable pool).length ∧
      runs (usable pool) counts ≠ [] ∧
      ofPool pool tabulate = table (runs (usable pool) counts).toArray := by
  rcases ofPool_cases pool tabulate with ⟨noneUsable, -⟩ | ⟨entry, one, -⟩ | ⟨-, form⟩
  · rw [noneUsable] at several
    cases several
  · rw [one, List.length_singleton] at several
    omega
  · have totals : ∃ totals, ofTotals (weighted pool) = cumulative (usable pool).toArray totals ∧
        totals.size = (usable pool).length :=
      ⟨runningTotals ((weighted pool).map Prod.snd), by rw [ofTotals, map_fst_weighted],
        by rw [size_runningTotals, List.length_map, length_weighted]⟩
    rw [form]
    cases tabulate with
    | false => exact Or.inl totals
    | true =>
      rw [if_pos rfl]
      unfold ofShares
      split
      · exact Or.inl totals
      · rename_i shares
        rw [tableEntries_eq_runs, map_fst_weighted] at shares ⊢
        exact Or.inr ⟨rfl, _, by rw [List.length_map, length_weighted], shares, rfl⟩

/-- Only where no entry is usable there is nothing to draw. -/
theorem ofPool_eq_nothing_iff {pool : List (Nat × Float)} {tabulate : Bool} :
    ofPool pool tabulate = nothing ↔ usable pool = [] := by
  rcases ofPool_cases pool tabulate with ⟨noneUsable, form⟩ | ⟨entry, one, form⟩ | ⟨several, -⟩
  · exact iff_of_true form noneUsable
  · rw [form, one]
    exact iff_of_false Sampler.noConfusion (List.cons_ne_nil _ _)
  · refine iff_of_false (fun isNothing => ?_) (List.ne_nil_of_length_pos (by omega))
    rcases ofPool_of_several several tabulate with ⟨_, form, -⟩ | ⟨-, _, -, -, form⟩ <;>
      cases isNothing.symm.trans form

/-- Only where one entry is usable there is a single one to draw. -/
theorem ofPool_eq_single_iff {pool : List (Nat × Float)} {tabulate : Bool} {entry : Nat} :
    ofPool pool tabulate = single entry ↔ usable pool = [entry] := by
  rcases ofPool_cases pool tabulate with ⟨noneUsable, form⟩ | ⟨other, one, form⟩ | ⟨several, -⟩
  · rw [form, noneUsable]
    exact iff_of_false Sampler.noConfusion (List.cons_ne_nil _ _).symm
  · rw [form, one, single.injEq, List.singleton_inj]
  · refine iff_of_false (fun chosen => ?_) fun one => ?_
    · rcases ofPool_of_several several tabulate with ⟨_, form, -⟩ | ⟨-, _, -, -, form⟩ <;>
        cases chosen.symm.trans form
    · rw [one, List.length_singleton] at several
      omega

/-! ### Running totals in place of a table -/

/-- So many entries, each of weight 1. -/
def equalPool (count : Nat) : List (Nat × Float) := (List.range count).map fun entry => (entry, 1)

/-- Weights of 1 are added up exactly, as long as there are not too many. -/
theorem foldl_add_ones (entries : List Nat) {start : Nat} (positive : 0 < start)
    (few : start + entries.length < 2 ^ 53) :
    (entries.map fun entry => (entry, (1 : Float))).foldl (fun total entry => total + entry.2)
      (Magnitude.ofNat start).double = (Magnitude.ofNat (start + entries.length)).double := by
  induction entries generalizing start with
  | nil => rfl
  | cons entry entries ih =>
    rw [List.length_cons] at few ⊢
    have next := Magnitude.isNormal_ofNat (m := start + 1) (by omega) (by omega)
    have captures := Magnitude.captures_value (.ofNat (start + 1))
    rw [Magnitude.value_ofNat (by omega) (by omega), Nat.cast_add, Nat.cast_one,
      ← Magnitude.value_ofNat positive (by omega), ← Magnitude.value_one] at captures
    have sum := Magnitude.double_add (Magnitude.isNormal_ofNat positive (by omega)).toIsFinite
      Magnitude.isFinite_one next.isCanonical captures
    rw [List.map_cons, List.foldl_cons, Magnitude.one_eq_double, sum, ← Magnitude.one_eq_double,
      ih (by omega) (by omega), add_assoc, add_comm 1]

theorem totalWeight_ones {entries : List Nat} (nonempty : entries ≠ [])
    (few : entries.length < 2 ^ 53) :
    totalWeight (entries.map fun entry => (entry, 1)) =
      (Magnitude.ofNat entries.length).double := by
  cases entries with
  | nil => exact absurd rfl nonempty
  | cons entry entries =>
    have first : (0 : Float) + 1 = (Magnitude.ofNat 1).double := by decide +kernel
    rw [List.length_cons, add_comm] at few ⊢
    rw [totalWeight, List.map_cons, List.foldl_cons, first, foldl_add_ones entries one_pos few]

theorem filter_equalPool (count : Nat) :
    (equalPool count).filter (fun entry => isUsable entry.2) = equalPool count := by
  have positive : isUsable 1 = true := by decide +kernel
  refine List.filter_eq_self.mpr fun entry member => ?_
  obtain ⟨-, -, rfl⟩ := List.mem_map.mp member
  exact positive

theorem usable_equalPool (count : Nat) : usable (equalPool count) = List.range count := by
  rw [usable, filter_equalPool, equalPool, List.map_map]
  exact List.map_id _

/-- Where more than 2048 entries have equal shares, none of these comes to half a place, and running
totals take the place of the table. -/
theorem ofPool_equalPool {count : Nat} (many : 2048 < count) (few : count < 2 ^ 53)
    (tabulate : Bool) : ofPool (equalPool count) tabulate = ofTotals (equalPool count) := by
  have finite := (Magnitude.isNormal_ofNat (by omega) few).toIsFinite
  have total : totalWeight (equalPool count) = (Magnitude.ofNat count).double := by
    have nonempty : List.range count ≠ [] := by
      rw [Ne, List.range_eq_nil]
      omega
    have sum := totalWeight_ones nonempty (by rwa [List.length_range])
    rwa [List.length_range] at sum
  have same : weighted (equalPool count) = equalPool count := by
    rw [weighted, filter_equalPool, rescale, total,
      if_pos ((Magnitude.isFinite_double_iff finite.isCanonical).mpr finite)]
  have lost : tableEntries (equalPool count) = [] := by
    have noCopies : copies (Magnitude.ofNat count).double 1 = 0 := by
      rw [Magnitude.one_eq_double, copies_double_eq_zero_iff finite Magnitude.isFinite_one] <;>
        rw [Magnitude.value_one, Magnitude.value_ofNat (by omega) few]
      · exact_mod_cast many
      · exact_mod_cast (by omega : 1 ≤ count)
    rw [tableEntries, total]
    simp [equalPool, noCopies]
  rcases ofPool_cases (equalPool count) tabulate with ⟨noneUsable, -⟩ | ⟨entry, one, -⟩ | ⟨-, form⟩
  · rw [usable_equalPool, List.range_eq_nil] at noneUsable
    omega
  · have length := congrArg List.length one
    rw [usable_equalPool, List.length_range, List.length_singleton] at length
    omega
  · rw [form, same, ofShares, lost]
    exact ite_self _

/-! ### Prepared samplers -/

/-- Prepared samplers are well-formed.  One that is prepared for a pool has nothing to draw, or a
single entry, exactly if no entry or one entry of the pool is usable.  Where there are several, it
holds all of them in order with a running total for each, which happens with tables as well as
without, or, only if tables are wanted, a table that is not empty with a run for each of them, in
order.  So no draw fails, whatever generator it is made with: it draws nothing exactly if no entry
is usable, and otherwise a usable entry.  The draw that is made from words is such a draw. -/
theorem prepared_wellFormed :
    (∀ (pool : List (Nat × Float)) (tabulate : Bool),
      (ofPool pool tabulate = nothing ↔ usable pool = []) ∧
      (∀ entry, ofPool pool tabulate = single entry ↔ usable pool = [entry]) ∧
      (2 ≤ (usable pool).length →
        (∃ totals, ofPool pool tabulate = cumulative (usable pool).toArray totals ∧
          totals.size = (usable pool).length) ∨
        tabulate = true ∧ ∃ counts, counts.length = (usable pool).length ∧
          runs (usable pool) counts ≠ [] ∧
          ofPool pool tabulate = table (runs (usable pool) counts).toArray)) ∧
    (∀ tabulate, ∃ pool totals, 2 ≤ (usable pool).length ∧
      ofPool pool tabulate = cumulative (usable pool).toArray totals) ∧
    (∀ (G : Type) (generator : Generator G), generator.IsBounded → ∀ pool tabulate source,
      ∃ drawn next, sampleChecked generator (ofPool pool tabulate) source = some (drawn, next) ∧
        (drawn = none ↔ usable pool = []) ∧ ∀ entry, drawn = some entry → entry ∈ usable pool) ∧
    ∀ (G : Type) [WordSource G] (pool : List (Nat × Float)) (tabulate : Bool) (source : G),
      sampleChecked (.ofWords G) (ofPool pool tabulate) source =
        some ((ofPool pool tabulate).sample source) := by
  refine ⟨?forms, ?totals, ?draws, ?words⟩
  case forms =>
    exact fun pool tabulate => ⟨ofPool_eq_nothing_iff, fun _ => ofPool_eq_single_iff,
      fun several => ofPool_of_several several tabulate⟩
  case totals =>
    intro tabulate
    have entries : (equalPool 2049).map Prod.fst = usable (equalPool 2049) := by
      rw [usable_equalPool, equalPool, List.map_map]
      exact List.map_id _
    refine ⟨equalPool 2049, runningTotals ((equalPool 2049).map Prod.snd), ?_, ?_⟩
    · rw [usable_equalPool, List.length_range]
      norm_num
    · rw [ofPool_equalPool (by norm_num) (by norm_num), ofTotals, entries]
  case draws =>
    intro G generator bounded pool tabulate source
    obtain ⟨drawn, next, checked, cases⟩ := sampleChecked_ofPool bounded pool tabulate source
    refine ⟨drawn, next, checked, ?_⟩
    rcases cases with ⟨noneUsable, rfl⟩ | ⟨entry, member, rfl⟩
    · exact ⟨iff_of_true rfl noneUsable, fun _ impossible => by cases impossible⟩
    · exact ⟨iff_of_false (Option.some_ne_none _) (List.ne_nil_of_mem member),
        fun _ same => Option.some.inj same ▸ member⟩
  case words =>
    intro G _ pool tabulate source
    obtain ⟨drawn, next, checked, -⟩ :=
      sampleChecked_ofPool (Generator.isBounded_ofWords G) pool tabulate source
    rw [checked, sample_of_sampleChecked checked]

/-- A generator that counts its draws, and draws one half, or the count below a bound. -/
def counting : Generator Nat := ⟨fun count => (0.5, count + 1),
  fun bound count => (count % bound, count + 1)⟩

/-- A pool with unusable entries, and with two usable ones of equal weight. -/
def mixedPool : List (Nat × Float) := [(0, 0), (3, 0.5), (4, -1), (6, 0.5)]

theorem prepared_wellFormed_mixed :
    counting.IsBounded ∧ 2 ≤ (usable mixedPool).length ∧
    (∃ counts, counts.length = 2 ∧ runs [3, 6] counts ≠ [] ∧
      ofPool mixedPool true = table (runs [3, 6] counts).toArray) ∧
    (∃ totals, ofPool mixedPool false = cumulative #[3, 6] totals ∧ totals.size = 2) ∧
    ∃ entry next, sampleChecked counting (ofPool mixedPool true) 700 = some (some entry, next) ∧
      entry ∈ [3, 6] := by
  obtain ⟨forms, -, draws, -⟩ := prepared_wellFormed
  have entries : usable mixedPool = [3, 6] := by decide +kernel
  have tabulated : (match ofPool mixedPool true with
      | table _ => true
      | _ => false) = true := by decide +kernel
  have bounded : counting.IsBounded := fun bound source positive => Nat.mod_lt source positive
  have several : 2 ≤ (usable mixedPool).length := by rw [entries]; decide
  refine ⟨bounded, several, ?_, ?_, ?_⟩
  · have form := (forms mixedPool true).2.2 several
    rw [entries] at form
    refine (form.resolve_left ?_).2
    rintro ⟨totals, cumulated, -⟩
    rw [cumulated] at tabulated
    cases tabulated
  · have form := (forms mixedPool false).2.2 several
    rw [entries] at form
    exact form.resolve_right fun tabulated => Bool.false_ne_true tabulated.1
  · obtain ⟨drawn, next, checked, undrawn, usableIfDrawn⟩ :=
      draws Nat counting bounded mixedPool true 700
    cases drawn with
    | none =>
      rw [entries] at undrawn
      exact absurd (undrawn.mp rfl) (List.cons_ne_nil _ _)
    | some entry =>
      rw [entries] at usableIfDrawn
      exact ⟨entry, next, checked, usableIfDrawn entry rfl⟩

end Lindenmayer.Sampler
