import Lindenmayer.Proofs.Decimal.Comparison
import Lindenmayer.Proofs.Sampler.Weights
import Lindenmayer.Random.WordList

/-!
# Searching running totals

A sampler with running totals halves the places that its search is left with, and finds what a scan
from the front finds: the first total above the number that was drawn.  The search needs totals in
which those that are not above this number come first.  The totals of a prepared sampler ascend, so
they are always of that kind.
-/

namespace Lindenmayer.Sampler

open Decimal

/-! ### Halving -/

/-- The elements that satisfy a test are those at the first `count` places. -/
structure HoldsBelow {α : Type} (test : α → Bool) (xs : Array α) (count : Nat) : Prop where
  count_le : count ≤ xs.size
  holds_iff : ∀ i (inside : i < xs.size), test xs[i] = true ↔ i < count

/-- The half that is kept is the one in which the test begins to fail. -/
theorem bisect_eq {test : Nat → Bool} {base size count : Nat} (positive : 0 < size)
    (above : base ≤ count) (below : count ≤ base + size)
    (holds : ∀ i, base ≤ i → i < base + size → (test i = true ↔ i < count)) :
    bisect test base size = count := by
  fun_induction bisect test base size with
  | case1 base size more middle ih =>
    have reached : test middle = true ↔ middle < count := holds middle (by omega) (by omega)
    by_cases upper : test middle = true
    · have past := reached.mp upper
      rw [dif_pos upper] at ih
      rw [if_pos upper]
      exact ih (by omega) (by omega) (by omega) fun i _ _ => holds i (by omega) (by omega)
    · have before := mt reached.mpr upper
      rw [dif_neg upper] at ih
      rw [if_neg upper]
      exact ih (by omega) (by omega) (by omega) fun i _ _ => holds i (by omega) (by omega)
  | case2 base size one found =>
    have past := (holds base (by omega) (by omega)).mp found
    omega
  | case3 base size one missed =>
    have before := mt (holds base (by omega) (by omega)).mpr missed
    omega

section

variable {α : Type} {test : α → Bool} {xs : Array α} {count : Nat}

theorem HoldsBelow.firstFailing_eq (below : HoldsBelow test xs count) :
    firstFailing test xs = count := by
  have last := below.count_le
  unfold firstFailing
  split
  · rename_i isEmpty
    rw [Array.isEmpty_iff_size_eq_zero] at isEmpty
    omega
  · rename_i nonempty
    rw [Array.isEmpty_iff_size_eq_zero] at nonempty
    refine bisect_eq (by omega) (Nat.zero_le _) (by omega) fun i _ inside => ?_
    rw [Nat.zero_add] at inside
    rw [Array.getElem?_eq_getElem inside, Option.any_some]
    exact below.holds_iff i inside

/-- Where the test fails at all, the first place where it does is the least one. -/
theorem HoldsBelow.isLeast (below : HoldsBelow test xs count) (lt : count < xs.size) :
    IsLeast {i | ∃ inside : i < xs.size, ¬test xs[i] = true} count := by
  refine ⟨⟨lt, ?_⟩, ?_⟩
  · rw [below.holds_iff count lt]
    exact Nat.lt_irrefl count
  · rintro i ⟨inside, fails⟩
    rw [below.holds_iff i inside] at fails
    exact Nat.le_of_not_lt fails

theorem HoldsBelow.lt_size_iff (below : HoldsBelow test xs count) :
    count < xs.size ↔ ∃ x ∈ xs, ¬test x = true := by
  constructor
  · intro lt
    exact ⟨xs[count], Array.getElem_mem lt, (below.isLeast lt).1.2⟩
  · rintro ⟨x, member, fails⟩
    obtain ⟨i, inside, rfl⟩ := Array.getElem_of_mem member
    rw [below.holds_iff i inside] at fails
    omega

/-- A test that holds of everything in front of an element of which it holds. -/
theorem exists_holdsBelow (down : xs.toList.Pairwise fun x y => test y = true → test x = true) :
    ∃ count, HoldsBelow test xs count := by
  refine ⟨xs.findIdx fun x => !test x, Array.findIdx_le_size, fun i inside => ⟨?_, ?_⟩⟩
  · intro holds
    by_contra past
    have reached := not_lt.mp past
    have fails := Array.findIdx_getElem (w := reached.trans_lt inside)
    rw [Bool.not_eq_true', ← Bool.not_eq_true] at fails
    rcases reached.eq_or_lt with rfl | before
    · exact fails holds
    · exact fails (List.pairwise_iff_getElem.mp down _ _ (reached.trans_lt inside) inside before
        holds)
  · intro before
    simpa using Array.not_of_lt_findIdx before

end

/-! ### Ascending totals -/

theorem toList_runningTotals (weights : List Float) :
    (runningTotals weights).toList = (weights.scanl (· + ·) 0).tail := by
  suffices general : ∀ totals : Array Float, (weights.foldl
      (fun totals weight => totals.push (totals.back?.getD 0 + weight)) totals).toList =
        totals.toList ++ (weights.scanl (· + ·) (totals.back?.getD 0)).tail by
    simpa [runningTotals] using general #[]
  induction weights with
  | nil => simp
  | cons weight weights ih =>
    intro totals
    rw [List.foldl_cons, ih, List.scanl_cons, List.tail_cons]
    cases weights <;> simp

/-- Every sum is at least the one before it, as rounding respects the order. -/
theorem isChain_scanl {pool : List (Nat × Float)} (sized : Sized pool) {start : Magnitude}
    (begun : start.IsFinite)
    (finite : (pool.foldl (fun total entry => total + entry.2) start.double).isFinite = true) :
    ((pool.map Prod.snd).scanl (· + ·) start.double).IsChain (· ≤ ·) := by
  -- The start is the sum so far.  It stays finite, as the sum of the whole pool is.
  induction pool generalizing start with
  | nil => exact .singleton _
  | cons entry pool ih =>
    obtain ⟨v, small, weight⟩ := sized entry List.mem_cons_self
    obtain ⟨u, canonical, captures, sum⟩ := Magnitude.exists_sum begun small
    rw [List.foldl_cons, weight, sum] at finite
    have within := (Magnitude.isFinite_double_iff canonical).mp (isFinite_of_isFinite_foldl finite)
    have after := captures.le_value canonical begun.isCanonical
      (le_add_of_nonneg_right v.value_nonneg)
    have rest := ih (fun other member => sized other (List.mem_cons_of_mem _ member)) within finite
    rw [List.map_cons, List.scanl_cons, weight, sum]
    refine rest.cons fun next first => ?_
    rw [List.head?_scanl, Option.mem_def, Option.some_inj] at first
    rw [← first, Magnitude.double_le_double begun within]
    exact after

theorem pairwise_runningTotals (pool : List (Nat × Float)) :
    (runningTotals ((weighted pool).map Prod.snd)).toList.Pairwise (· ≤ ·) := by
  obtain ⟨sized, finite⟩ := weighted_within pool
  rw [totalWeight, Magnitude.zero_eq_double] at finite
  rw [toList_runningTotals, Magnitude.zero_eq_double]
  exact (isChain_scanl sized Magnitude.isFinite_zero finite).pairwise.tail

/-- A prepared sampler with running totals has the totals of all weights that it draws by. -/
theorem eq_of_ofPool {pool : List (Nat × Float)} {tabulate : Bool} {entries : Array Nat}
    {totals : Array Float} (made : ofPool pool tabulate = cumulative entries totals) :
    entries.size = totals.size ∧ 0 < totals.size ∧
      totals = runningTotals ((weighted pool).map Prod.snd) := by
  rcases ofPool_cases pool tabulate with ⟨-, form⟩ | ⟨_, -, form⟩ | ⟨several, form⟩
  · cases form.symm.trans made
  · cases form.symm.trans made
  · have totalled : ofTotals (weighted pool) = cumulative entries totals := by
      rw [made] at form
      split at form
      · unfold ofShares at form
        split at form
        · exact form.symm
        · cases form
      · exact form.symm
    obtain ⟨rfl, rfl⟩ := cumulative.inj totalled
    refine ⟨by simp, ?_, rfl⟩
    rw [size_runningTotals, List.length_map, length_weighted]
    omega

/-- Of the totals of a prepared sampler, those that are not above a number come first, whatever the
number is. -/
theorem exists_holdsBelow_ofPool {pool : List (Nat × Float)} {tabulate : Bool}
    {entries : Array Nat} {totals : Array Float}
    (made : ofPool pool tabulate = cumulative entries totals) (draw : Float) :
    ∃ count, HoldsBelow (fun total => total ≤ draw) totals count := by
  obtain ⟨-, -, rfl⟩ := eq_of_ofPool made
  refine exists_holdsBelow ((pairwise_runningTotals pool).imp fun less reached => ?_)
  rw [decide_eq_true_eq] at reached ⊢
  exact le_trans_double less reached

/-! ### Draws -/

/-- The number that a word stands for on the scale of some running totals. -/
def mark (totals : Array Float) (word : UInt64) : Float :=
  WordSource.unitOfWord word * totals.back?.getD 0

/-- One word decides, by its mark. -/
theorem sample_cumulative {G : Type} [WordSource G] {entries : Array Nat} {totals : Array Float}
    (nonempty : 0 < totals.size) (source : G) :
    (cumulative entries totals).sample source =
      (entryAbove entries totals (mark totals (WordSource.next source).1),
        (WordSource.next source).2) := by
  have last : totals.back? = some totals[totals.size - 1] := by
    rw [Array.back?_eq_getElem?, Array.getElem?_eq_getElem]
  simp only [sample, mark, last]
  rfl

section

variable {entries : Array Nat} {totals : Array Float} {draw : Float} {count : Nat}

theorem HoldsBelow.entryAbove_eq (below : HoldsBelow (fun total => total ≤ draw) totals count) :
    entryAbove entries totals draw = entries[min count (entries.size - 1)]? := by
  rw [entryAbove, below.firstFailing_eq]

/-- A total that is equal to the one before it is not the first one above a number. -/
theorem HoldsBelow.ne_succ (below : HoldsBelow (fun total => total ≤ draw) totals count) {i : Nat}
    (inside : i + 1 < totals.size) (level : (totals[i + 1] == totals[i]) = true) :
    count ≠ i + 1 := by
  rintro rfl
  have reached := (below.holds_iff i (Nat.lt_of_succ_lt inside)).mpr (Nat.lt_succ_self i)
  rw [decide_eq_true_eq, ← le_iff_le_of_beq level] at reached
  exact Nat.lt_irrefl _ ((below.holds_iff (i + 1) inside).mp (decide_eq_true reached))

end

/-- A sampler with as many entries as running totals draws by one word, and the entry that it draws
is the one whose total is the first above the mark of the word, or the last entry if no total is
above it, provided that the totals that are not above the mark come first.  An entry whose total is
equal to the one before it is not drawn, unless no total is above the mark.  A prepared sampler with
running totals is always of this kind, whatever the mark is. -/
theorem sample_firstAbove :
    (∀ (G : Type) [WordSource G] (entries : Array Nat) (totals : Array Float) (source : G)
      (draw : Float) (count : Nat), entries.size = totals.size → 0 < totals.size →
      draw = mark totals (WordSource.next source).1 →
      HoldsBelow (fun total => total ≤ draw) totals count →
        ∃ position, ∃ inside : position < entries.size,
          (cumulative entries totals).sample source =
            (some entries[position], (WordSource.next source).2) ∧
          (IsLeast {i | ∃ inside : i < totals.size, ¬totals[i] ≤ draw} position ∨
            (∀ total ∈ totals, total ≤ draw) ∧ position + 1 = entries.size) ∧
          ((∃ total ∈ totals, ¬total ≤ draw) → ∀ i (inside : i + 1 < totals.size),
            (totals[i + 1] == totals[i]) = true → position ≠ i + 1)) ∧
    ∀ (pool : List (Nat × Float)) (tabulate : Bool) (entries : Array Nat) (totals : Array Float),
      ofPool pool tabulate = cumulative entries totals →
        entries.size = totals.size ∧ 0 < totals.size ∧
        ∀ draw, ∃ count, HoldsBelow (fun total => total ≤ draw) totals count := by
  constructor
  · rintro G _ entries totals source _ count same nonempty rfl below
    have bounded := below.count_le
    have above_iff := below.lt_size_iff
    have least := below.isLeast
    simp only [decide_eq_true_eq] at above_iff least
    have inside : min count (entries.size - 1) < entries.size := by omega
    refine ⟨min count (entries.size - 1), inside, ?drawn, ?first, ?level⟩
    case drawn =>
      rw [sample_cumulative nonempty, below.entryAbove_eq, Array.getElem?_eq_getElem inside]
    case first =>
      rcases bounded.lt_or_eq with lt | eq
      · left
        rw [Nat.min_eq_left (by omega)]
        exact least lt
      · right
        refine ⟨fun total member => ?_, by omega⟩
        by_contra above
        exact eq.not_lt (above_iff.mpr ⟨total, member, above⟩)
    case level =>
      intro above i inside equal
      have lt := above_iff.mpr above
      rw [Nat.min_eq_left (by omega)]
      exact below.ne_succ inside equal
  · intro pool tabulate entries totals made
    obtain ⟨same, nonempty, -⟩ := eq_of_ofPool made
    exact ⟨same, nonempty, exists_holdsBelow_ofPool made⟩

/-- A pool with a weight that is lost when it is added to the one before it. -/
def levelPool : List (Nat × Float) := [(4, 1), (7, 1e-17), (9, 1)]

/-- Its totals, of which the second is equal to the first. -/
def levelTotals : Array Float := #[1, 1, 2]

theorem ofPool_levelPool : ofPool levelPool false = cumulative #[4, 7, 9] levelTotals := by
  have entries : usable levelPool = [4, 7, 9] := by decide +kernel
  have totals : runningTotals ((weighted levelPool).map Prod.snd) = levelTotals := by
    decide +kernel
  rcases ofPool_cases levelPool false with ⟨noneUsable, -⟩ | ⟨_, one, -⟩ | ⟨-, form⟩
  · rw [entries] at noneUsable
    cases noneUsable
  · rw [entries] at one
    cases one
  · rw [form, if_neg Bool.false_ne_true, ofTotals, map_fst_weighted, entries, totals]

/-- The mark of the middle word, which is just the first total. -/
def middleMark : Float := mark levelTotals 0x8000000000000000

theorem sample_firstAbove_level :
    ofPool levelPool false = cumulative #[4, 7, 9] levelTotals ∧
    (∀ draw, ∃ count, HoldsBelow (fun total => total ≤ draw) levelTotals count) ∧
    HoldsBelow (fun total => total ≤ middleMark) levelTotals 2 ∧
    (∃ total ∈ levelTotals, ¬total ≤ middleMark) ∧ (levelTotals[1] == levelTotals[0]) = true ∧
    ∃ position, ∃ inside : position < 3,
      (cumulative #[4, 7, 9] levelTotals).sample (⟨[0x8000000000000000]⟩ : WordList) =
        (some #[4, 7, 9][position], ⟨[]⟩) ∧
      (IsLeast {i | ∃ inside : i < 3, ¬levelTotals[i] ≤ middleMark} position ∨
        (∀ total ∈ levelTotals, total ≤ middleMark) ∧ position + 1 = 3) ∧
      position ≠ 1 := by
  have below : HoldsBelow (fun total => total ≤ middleMark) levelTotals 2 :=
    ⟨by decide, by decide +kernel⟩
  have above : ∃ total ∈ levelTotals, ¬total ≤ middleMark :=
    ⟨2, by simp [levelTotals], by decide +kernel⟩
  have level : (levelTotals[1] == levelTotals[0]) = true := by decide +kernel
  obtain ⟨draws, prepared⟩ := sample_firstAbove
  obtain ⟨same, nonempty, searchable⟩ := prepared levelPool false _ _ ofPool_levelPool
  obtain ⟨position, inside, drawn, first, apart⟩ :=
    draws WordList #[4, 7, 9] levelTotals ⟨[0x8000000000000000]⟩ middleMark 2 same nonempty rfl
      below
  exact ⟨ofPool_levelPool, searchable, below, above, level, position, inside, drawn, first,
    apart above 0 (by decide) level⟩

end Lindenmayer.Sampler
