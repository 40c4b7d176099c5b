import Lindenmayer.Proofs.Sampler.Shares
import Lindenmayer.Random.WordList

/-!
# What a table holds

Without a table, a sampler holds all usable entries.  With one, it holds those with at least half a
place, and can draw each of them.  Where no entry has as much, it holds all of them again.
-/

namespace Lindenmayer

/-! ### Numbers below a bound -/

namespace WordSource

theorem toNat_le_toNat_shiftLeft {bound : UInt64} (positive : 0 < bound.toNat) :
    bound.toNat ≤ (bound <<< (63 - bound.log2)).toNat := by
  have digits : bound.toNat.log2 < 64 := (Nat.log2_lt positive.ne').mpr bound.toNat_lt
  have log : bound.log2.toNat = bound.toNat.log2 := rfl
  have amount : (63 - bound.log2).toNat = 63 - bound.toNat.log2 := by
    rw [UInt64.toNat_sub_of_le]
    · rw [log]
      rfl
    · rw [UInt64.le_iff_toNat_le, log]
      exact Nat.le_of_lt_succ digits
  have fits : bound.toNat * 2 ^ (63 - bound.toNat.log2) < 2 ^ 64 := by
    calc bound.toNat * 2 ^ (63 - bound.toNat.log2)
        < 2 ^ (bound.toNat.log2 + 1) * 2 ^ (63 - bound.toNat.log2) := by
          gcongr; exact Nat.lt_log2_self
      _ = 2 ^ 64 := by rw [← pow_add]; congr 1; omega
  rw [UInt64.toNat_shiftLeft, amount,
    Nat.mod_eq_of_lt (by omega : 63 - bound.toNat.log2 < 64), Nat.shiftLeft_eq,
    Nat.mod_eq_of_lt fits]
  exact Nat.le_mul_of_pos_right _ (Nat.two_pow_pos _)

/-- A lower half that is below the bound itself is always accepted. -/
theorem le_acceptedUpTo {bound low : UInt64} (lt : low.toNat < bound.toNat) :
    low ≤ acceptedUpTo bound := by
  have power := toNat_le_toNat_shiftLeft (by omega : 0 < bound.toNat)
  have one : (1 : UInt64).toNat = 1 := rfl
  have positive : (1 : UInt64) ≤ bound <<< (63 - bound.log2) := by
    rw [UInt64.le_iff_toNat_le]
    omega
  rw [UInt64.le_iff_toNat_le, acceptedUpTo, UInt64.toNat_sub_of_le _ _ positive]
  omega

/-- Every number below a bound is drawn from some word. -/
theorem exists_below_eq {bound place : Nat} (lt : place < bound) (fits : bound < 2 ^ 64) :
    ∃ word, (below bound (⟨[word]⟩ : WordList)).1 = place := by
  -- The least word whose product with the bound has the place for its upper half.
  obtain ⟨word, rest, product, small⟩ :
      ∃ word rest, word * bound = place * 2 ^ 64 + rest ∧ rest < bound := by
    have division := Nat.div_add_mod' (place * 2 ^ 64 + (bound - 1)) bound
    have remainder := Nat.mod_lt (place * 2 ^ 64 + (bound - 1)) (by omega : bound > 0)
    exact ⟨(place * 2 ^ 64 + (bound - 1)) / bound,
      bound - 1 - (place * 2 ^ 64 + (bound - 1)) % bound, by omega, by omega⟩
  have within : word < 2 ^ 64 := by
    have : word * bound < 2 ^ 64 * bound := by
      calc word * bound < (place + 1) * 2 ^ 64 := by omega
        _ ≤ 2 ^ 64 * bound := by rw [mul_comm]; gcongr; omega
    exact Nat.lt_of_mul_lt_mul_right this
  have whole : word.toUInt64.toNat = word := Nat.mod_eq_of_lt within
  have whole' : bound.toUInt64.toNat = bound := Nat.mod_eq_of_lt fits
  have low : (word.toUInt64 * bound.toUInt64).toNat = rest := by
    rw [UInt64.toNat_mul, whole, whole', product]
    omega
  have accepted : word.toUInt64 * bound.toUInt64 ≤ acceptedUpTo bound.toUInt64 :=
    le_acceptedUpTo (by rw [low, whole']; exact small)
  refine ⟨word.toUInt64, ?_⟩
  obtain ⟨tries, most⟩ : ∃ tries, maxTries = tries + 1 := ⟨UInt64.size - 1, rfl⟩
  rw [below, most, belowWithin]
  show (if word.toUInt64 * bound.toUInt64 ≤ acceptedUpTo bound.toUInt64 then _ else _ : _ × _).1 = _
  rw [if_pos accepted]
  show (word.toUInt64.toNat * bound) >>> 64 = place
  rw [whole, product, Nat.shiftRight_eq_div_pow]
  omega

end WordSource

namespace Sampler

open Decimal

/-! ### Entries with a place -/

/-- The entries that a sampler holds, in order. -/
def stored : Sampler → List Nat
  | nothing => []
  | single entry => [entry]
  | cumulative entries _ => entries.toList
  | table entries => entries.toList

/-- Whether a weight comes to at least half a place of a table, in parts of a sum of weights. -/
def HasPlace (total weight : Float) : Prop := size total ≤ 2 * tableResolution * size weight

instance (total weight : Float) : Decidable (HasPlace total weight) :=
  inferInstanceAs (Decidable (_ ≤ _))

/-- The usable entries of a pool that have a place in its table, in order. -/
def placed (pool : List (Nat × Float)) : List Nat :=
  ((weighted pool).filter fun entry => HasPlace (totalWeight (weighted pool)) entry.2).map Prod.fst

variable {pool : List (Nat × Float)}

theorem mem_placed_iff {entry : Nat} : entry ∈ placed pool ↔
    ∃ weight, (entry, weight) ∈ weighted pool ∧ HasPlace (totalWeight (weighted pool)) weight := by
  simp [placed]

theorem mem_usable_of_mem_placed {entry : Nat} (member : entry ∈ placed pool) :
    entry ∈ usable pool := by
  obtain ⟨weight, listed, -⟩ := mem_placed_iff.mp member
  rw [← map_fst_weighted]
  exact List.mem_map.mpr ⟨_, listed, rfl⟩

/-- Only weights that do not come to half a place get no copies. -/
theorem copies_eq_zero_iff {entry : Nat × Float} (member : entry ∈ weighted pool) :
    copies (totalWeight (weighted pool)) entry.2 = 0 ↔
      ¬HasPlace (totalWeight (weighted pool)) entry.2 := by
  obtain ⟨total, finite, sum, greatest⟩ := exists_totalWeight pool
  obtain ⟨weight, finite', same⟩ := (weighted_within pool).1 entry member
  have le := greatest entry member
  rw [same, size_double finite'] at le
  have resolution : (2 * tableResolution : ℚ) = 2048 := by norm_num [tableResolution]
  rw [HasPlace, sum, same, size_double finite, size_double finite', not_le, resolution]
  exact copies_double_eq_zero_iff finite finite' le

theorem mem_tableEntries_iff {entry : Nat} :
    entry ∈ tableEntries (weighted pool) ↔ entry ∈ placed pool := by
  rw [mem_placed_iff, tableEntries, List.mem_flatMap]
  constructor
  · rintro ⟨⟨listed, weight⟩, member, copied⟩
    obtain ⟨nonzero, rfl⟩ := List.mem_replicate.mp copied
    exact ⟨weight, member, not_not.mp (mt (copies_eq_zero_iff member).mpr nonzero)⟩
  · rintro ⟨weight, member, place⟩
    have nonzero : copies (totalWeight (weighted pool)) weight ≠ 0 :=
      fun zero => (copies_eq_zero_iff member).mp zero place
    exact ⟨(entry, weight), member, List.mem_replicate.mpr ⟨nonzero, rfl⟩⟩

/-! ### Prepared samplers -/

/-- Without a table, a sampler holds what is usable. -/
theorem stored_ofPool_false (pool : List (Nat × Float)) :
    stored (ofPool pool false) = usable pool := by
  rcases ofPool_cases pool false with ⟨noneUsable, form⟩ | ⟨entry, one, form⟩ | ⟨-, form⟩
  · rw [form, noneUsable]
    rfl
  · rw [form, one]
    rfl
  · rw [form, ← map_fst_weighted]
    rfl

/-- With a table wanted, a sampler has one if there is a place in it for one of several entries. -/
theorem ofPool_true_of_placed (several : 2 ≤ (usable pool).length) (nonempty : placed pool ≠ []) :
    ofPool pool true = table (tableEntries (weighted pool)).toArray := by
  rcases ofPool_cases pool true with ⟨noneUsable, -⟩ | ⟨entry, one, -⟩ | ⟨-, form⟩
  · rw [noneUsable] at several
    cases several
  · rw [one, List.length_singleton] at several
    omega
  · rw [form, if_pos rfl, ofShares]
    split
    · rename_i noEntries
      obtain ⟨entry, member⟩ := List.exists_mem_of_ne_nil _ nonempty
      have shared := mem_tableEntries_iff.mpr member
      rw [noEntries] at shared
      cases shared
    · rfl

/-- With a table wanted, a sampler holds the entries that have a place, or all usable ones if no
entry has one. -/
theorem mem_stored_ofPool_true_iff {entry : Nat} :
    entry ∈ stored (ofPool pool true) ↔
      entry ∈ usable pool ∧ (placed pool = [] ∨ entry ∈ placed pool) := by
  rcases ofPool_cases pool true with ⟨noneUsable, form⟩ | ⟨only, one, form⟩ | ⟨several, form⟩
  · rw [form, noneUsable]
    simp [stored]
  · rw [form, one]
    refine ⟨fun member => ⟨member, ?_⟩, fun held => held.1⟩
    -- The only entry there is has a place if any entry has one.
    by_cases noPlaces : placed pool = []
    · exact Or.inl noPlaces
    · obtain ⟨other, otherPlaced⟩ := List.exists_mem_of_ne_nil _ noPlaces
      have same := mem_usable_of_mem_placed otherPlaced
      rw [one, List.mem_singleton] at same
      obtain rfl := List.mem_singleton.mp member
      exact Or.inr (same ▸ otherPlaced)
  · by_cases noPlaces : placed pool = []
    · have shares : tableEntries (weighted pool) = [] := by
        refine List.eq_nil_iff_forall_not_mem.mpr fun entry member => ?_
        rw [mem_tableEntries_iff, noPlaces] at member
        cases member
      rw [form, if_pos rfl, ofShares, shares, ← map_fst_weighted]
      simp [ofTotals, stored, noPlaces]
    · rw [ofPool_true_of_placed several noPlaces]
      show entry ∈ (tableEntries (weighted pool)).toArray.toList ↔ _
      rw [List.toList_toArray, mem_tableEntries_iff]
      exact ⟨fun member => ⟨mem_usable_of_mem_placed member, Or.inr member⟩,
        fun held => held.2.resolve_left noPlaces⟩

/-! ### Entries that can be drawn -/

/-- Some words make the sampler draw the entry. -/
def CanDraw (sampler : Sampler) (entry : Nat) : Prop :=
  ∃ words, (sampler.sample (⟨words⟩ : WordList)).1 = some entry

/-- Every entry of a table can be drawn, if the table is not larger than a word can tell. -/
theorem canDraw_table {entries : Array Nat} (fits : entries.size < 2 ^ 64) {entry : Nat}
    (member : entry ∈ entries) : CanDraw (table entries) entry := by
  obtain ⟨place, inside, rfl⟩ := Array.getElem_of_mem member
  obtain ⟨word, drawn⟩ := WordSource.exists_below_eq inside fits
  have nonempty : entries.isEmpty ≠ true := by
    rw [Array.isEmpty_iff_size_eq_zero.ne]
    omega
  refine ⟨[word], ?_⟩
  unfold sample
  simp only [if_neg nonempty]
  rw [drawn]
  exact Array.getElem?_eq_getElem inside

/-- Every entry that has a place can be drawn. -/
theorem canDraw_of_mem_placed {entry : Nat} (member : entry ∈ placed pool)
    (fits : (stored (ofPool pool true)).length < 2 ^ 64) : CanDraw (ofPool pool true) entry := by
  have held := mem_usable_of_mem_placed member
  rcases ofPool_cases pool true with ⟨noneUsable, -⟩ | ⟨only, one, form⟩ | ⟨several, -⟩
  · rw [noneUsable] at held
    cases held
  · rw [one, List.mem_singleton] at held
    rw [form, held]
    exact ⟨[], rfl⟩
  · rw [ofPool_true_of_placed several (List.ne_nil_of_mem member)] at fits ⊢
    refine canDraw_table (by simpa [stored] using fits) ?_
    rw [List.mem_toArray]
    exact mem_tableEntries_iff.mpr member

end Sampler

end Lindenmayer
