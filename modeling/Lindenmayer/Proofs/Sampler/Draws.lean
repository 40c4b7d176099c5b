import Lindenmayer.Sampler

/-!
# What a sampler draws

A sampler may hold anything, and drawing from one that holds running totals without entries, or a
table without places, fails.  No sampler that is prepared for a pool is like that: whatever numbers
a generator draws, it draws one of the entries of usable weight, and nothing exactly when there is
none.
-/

namespace Lindenmayer.Sampler

/-- The entries of a pool that can be drawn, in order. -/
def usable (pool : List (Nat × Float)) : List Nat :=
  (pool.filter fun entry => isUsable entry.2).map Prod.fst

/-- The entries of a pool that can be drawn, with the weights that they are drawn by. -/
def weighted (pool : List (Nat × Float)) : List (Nat × Float) :=
  rescale (pool.filter fun entry => isUsable entry.2)

theorem map_fst_rescale (pool : List (Nat × Float)) :
    (rescale pool).map Prod.fst = pool.map Prod.fst := by
  unfold rescale
  split
  · rfl
  · simp

@[simp] theorem map_fst_weighted (pool : List (Nat × Float)) :
    (weighted pool).map Prod.fst = usable pool :=
  map_fst_rescale _

@[simp] theorem length_weighted (pool : List (Nat × Float)) :
    (weighted pool).length = (usable pool).length := by
  rw [← map_fst_weighted, List.length_map]

/-! ### Running totals -/

@[simp] theorem size_runningTotals (weights : List Float) :
    (runningTotals weights).size = weights.length := by
  suffices general : ∀ totals : Array Float, (weights.foldl
      (fun totals weight => totals.push (totals.back?.getD 0 + weight)) totals).size =
        totals.size + weights.length by
    simpa [runningTotals] using general #[]
  induction weights with
  | nil => simp
  | cons weight weights ih =>
    intro totals
    rw [List.foldl_cons, ih, Array.size_push, List.length_cons]
    omega

theorem entryAbove_mem {entries : Array Nat} (nonempty : entries ≠ #[]) (totals : Array Float)
    (draw : Float) : ∃ entry ∈ entries, entryAbove entries totals draw = some entry := by
  have positive := Array.size_pos_iff.mpr nonempty
  have inside : min (firstFailing (fun total => total ≤ draw) totals) (entries.size - 1) <
      entries.size := by omega
  exact ⟨_, Array.getElem_mem inside, Array.getElem?_eq_getElem inside⟩

theorem back?_runningTotals_ne_none {pool : List (Nat × Float)} (nonempty : pool ≠ []) :
    (runningTotals (pool.map Prod.snd)).back? ≠ none := by
  intro last
  have empty := congrArg Array.size (Array.back?_eq_none_iff.mp last)
  simp only [size_runningTotals, List.length_map, List.size_toArray, List.length_nil,
    List.length_eq_zero_iff] at empty
  exact nonempty empty

/-- One word decides which entry is drawn. -/
theorem snd_sample_ofTotals {G : Type} [WordSource G] {pool : List (Nat × Float)}
    (nonempty : pool ≠ []) (source : G) :
    ((ofTotals pool).sample source).2 = WordSource.advance 1 source := by
  cases last : (runningTotals (pool.map Prod.snd)).back? with
  | none => exact absurd last (back?_runningTotals_ne_none nonempty)
  | some total =>
    simp only [ofTotals, sample, last]
    rfl

/-! ### Tables -/

theorem mem_of_mem_tableEntries {pool : List (Nat × Float)} {entry : Nat}
    (member : entry ∈ tableEntries pool) : entry ∈ pool.map Prod.fst := by
  obtain ⟨⟨listed, weight⟩, inside, copied⟩ := List.mem_flatMap.mp member
  rw [(List.mem_replicate.mp copied).2]
  exact List.mem_map.mpr ⟨_, inside, rfl⟩

/-! ### Draws that may fail -/

/-- A generator draws numbers from the unit interval and numbers below a bound. -/
structure Generator (G : Type) where
  unit : G → Float × G
  below : Nat → G → Nat × G

/-- What is drawn below a bound is below it, unless nothing is. -/
def Generator.IsBounded {G : Type} (generator : Generator G) : Prop :=
  ∀ bound source, 0 < bound → (generator.below bound source).1 < bound

/-- The generator that a word source is. -/
def Generator.ofWords (G : Type) [WordSource G] : Generator G :=
  ⟨WordSource.unitDraw, WordSource.below⟩

theorem Generator.isBounded_ofWords (G : Type) [WordSource G] : (ofWords G).IsBounded :=
  WordSource.below_lt

/-- Draws an entry, and fails where the last of no entries is asked for, or a number below 0. -/
def sampleChecked {G : Type} (generator : Generator G) (sampler : Sampler) (source : G) :
    Option (Option Nat × G) :=
  match sampler with
  | nothing => some (none, source)
  | single entry => some (some entry, source)
  | cumulative entries totals =>
    match totals.back? with
    | none => some (none, source)
    | some total =>
      let (unit, source) := generator.unit source
      if entries.isEmpty then none
      else some (entryAbove entries totals (unit * total), source)
  | table entries =>
    if entries.isEmpty then
      none
    else
      let (place, source) := generator.below entries.size source
      some (entries[place]?, source)

/-- A draw that does not fail is the one that a word source makes. -/
theorem sample_of_sampleChecked {G : Type} [WordSource G] {sampler : Sampler} {source : G}
    {drawn : Option Nat × G} (checked : sampleChecked (.ofWords G) sampler source = some drawn) :
    sampler.sample source = drawn := by
  cases sampler with
  | nothing | single => exact Option.some.inj checked
  | cumulative entries totals =>
    unfold sampleChecked at checked
    unfold sample
    cases last : totals.back? with
    | none =>
      simp only [last] at checked ⊢
      exact Option.some.inj checked
    | some total =>
      simp only [last] at checked ⊢
      exact Option.some.inj (Option.ite_none_left_eq_some.mp checked).2
  | table entries =>
    unfold sampleChecked at checked
    unfold sample
    obtain ⟨nonempty, drawn⟩ := Option.ite_none_left_eq_some.mp checked
    simp only [if_neg nonempty]
    exact Option.some.inj drawn

section

variable {G : Type} {generator : Generator G}

theorem sampleChecked_ofTotals {pool : List (Nat × Float)} (nonempty : pool ≠ []) (source : G) :
    ∃ entry ∈ pool.map Prod.fst, ∃ next,
      sampleChecked generator (ofTotals pool) source = some (some entry, next) := by
  have entries : (pool.map Prod.fst).toArray ≠ #[] := by simpa using nonempty
  cases last : (runningTotals (pool.map Prod.snd)).back? with
  | none => exact absurd last (back?_runningTotals_ne_none nonempty)
  | some total =>
    obtain ⟨entry, member, drawn⟩ := entryAbove_mem entries
      (runningTotals (pool.map Prod.snd)) ((generator.unit source).1 * total)
    refine ⟨entry, by simpa using member, (generator.unit source).2, ?_⟩
    simp only [ofTotals, sampleChecked, last, Array.isEmpty_iff, if_neg entries, drawn]

theorem sampleChecked_table (bounded : generator.IsBounded) {entries : Array Nat}
    (nonempty : entries ≠ #[]) (source : G) :
    ∃ entry ∈ entries, ∃ next,
      sampleChecked generator (table entries) source = some (some entry, next) := by
  have inside := bounded entries.size source (Array.size_pos_iff.mpr nonempty)
  refine ⟨_, Array.getElem_mem inside, (generator.below entries.size source).2, ?_⟩
  simp only [sampleChecked, Array.isEmpty_iff, if_neg nonempty]
  rw [Array.getElem?_eq_getElem inside]

theorem sampleChecked_ofShares (bounded : generator.IsBounded) {pool : List (Nat × Float)}
    (nonempty : pool ≠ []) (source : G) :
    ∃ entry ∈ pool.map Prod.fst, ∃ next,
      sampleChecked generator (ofShares pool) source = some (some entry, next) := by
  unfold ofShares
  split
  · exact sampleChecked_ofTotals nonempty source
  · rename_i entries shares
    have places : (tableEntries pool).toArray ≠ #[] := by simpa using shares
    obtain ⟨entry, member, drawn⟩ := sampleChecked_table bounded places source
    exact ⟨entry, mem_of_mem_tableEntries (by simpa using member), drawn⟩

end

/-! ### Prepared samplers -/

/-- The form of a prepared sampler depends on how many entries are usable. -/
theorem ofPool_cases (pool : List (Nat × Float)) (tabulate : Bool) :
    (usable pool = [] ∧ ofPool pool tabulate = nothing) ∨
      (∃ entry, usable pool = [entry] ∧ ofPool pool tabulate = single entry) ∨
        2 ≤ (usable pool).length ∧ ofPool pool tabulate =
          if tabulate then ofShares (weighted pool) else ofTotals (weighted pool) := by
  have entries := map_fst_weighted pool
  unfold weighted at entries ⊢
  unfold ofPool
  cases listed : rescale (pool.filter fun entry => isUsable entry.2) with
  | nil =>
    rw [listed] at entries
    exact Or.inl ⟨entries.symm, rfl⟩
  | cons first rest =>
    rw [listed] at entries
    cases rest with
    | nil => exact Or.inr (Or.inl ⟨first.1, entries.symm, rfl⟩)
    | cons second rest =>
      refine Or.inr (Or.inr ⟨?_, rfl⟩)
      rw [← entries]
      simp

/-- With several usable entries there is a weight to draw by. -/
theorem weighted_ne_nil {pool : List (Nat × Float)} (several : 2 ≤ (usable pool).length) :
    weighted pool ≠ [] :=
  List.ne_nil_of_length_pos (by rw [length_weighted]; omega)

/-- With at most one usable entry there is nothing to choose, with tables and without. -/
theorem ofPool_of_length_usable_le {pool : List (Nat × Float)}
    (few : (usable pool).length ≤ 1) (tabulate : Bool) :
    ofPool pool tabulate = (usable pool).head?.elim nothing single := by
  rcases ofPool_cases pool tabulate with
    ⟨noneUsable, form⟩ | ⟨entry, one, form⟩ | ⟨several, form⟩
  · rw [form, noneUsable]
    rfl
  · rw [form, one]
    rfl
  · omega

/-- No draw from a prepared sampler fails.  It draws nothing when no entry is usable, and otherwise
a usable entry. -/
theorem sampleChecked_ofPool {G : Type} {generator : Generator G} (bounded : generator.IsBounded)
    (pool : List (Nat × Float)) (tabulate : Bool) (source : G) :
    ∃ drawn next, sampleChecked generator (ofPool pool tabulate) source = some (drawn, next) ∧
      (usable pool = [] ∧ drawn = none ∨ ∃ entry ∈ usable pool, drawn = some entry) := by
  rcases ofPool_cases pool tabulate with
    ⟨noneUsable, form⟩ | ⟨entry, one, form⟩ | ⟨several, form⟩
  · rw [form]
    exact ⟨_, source, rfl, Or.inl ⟨noneUsable, rfl⟩⟩
  · rw [form, one]
    exact ⟨_, source, rfl, Or.inr ⟨entry, List.mem_singleton_self entry, rfl⟩⟩
  · have nonempty := weighted_ne_nil several
    have succeeds : ∃ entry ∈ (weighted pool).map Prod.fst, ∃ next,
        sampleChecked generator (ofPool pool tabulate) source = some (some entry, next) := by
      rw [form]
      split
      · exact sampleChecked_ofShares bounded nonempty source
      · exact sampleChecked_ofTotals nonempty source
    obtain ⟨entry, member, next, drawn⟩ := succeeds
    rw [map_fst_weighted] at member
    exact ⟨_, next, drawn, Or.inr ⟨entry, member, rfl⟩⟩

variable {G : Type} [WordSource G]

/-- A prepared sampler draws nothing when no entry is usable, and otherwise a usable entry. -/
theorem sample_ofPool (pool : List (Nat × Float)) (tabulate : Bool) (source : G) :
    (usable pool = [] ∧ ((ofPool pool tabulate).sample source).1 = none) ∨
      ∃ entry ∈ usable pool, ((ofPool pool tabulate).sample source).1 = some entry := by
  obtain ⟨drawn, next, checked, entry⟩ :=
    sampleChecked_ofPool (Generator.isBounded_ofWords G) pool tabulate source
  rw [sample_of_sampleChecked checked]
  exact entry

/-- Without tables, a prepared sampler takes one word if two entries or more are usable, and no word
otherwise. -/
theorem snd_sample_ofPool_false (pool : List (Nat × Float)) (source : G) :
    ((ofPool pool false).sample source).2 =
      WordSource.advance (if 2 ≤ (usable pool).length then 1 else 0) source := by
  rcases ofPool_cases pool false with
    ⟨noneUsable, form⟩ | ⟨entry, one, form⟩ | ⟨several, form⟩
  · rw [form, noneUsable]
    rfl
  · rw [form, one]
    rfl
  · rw [form, if_pos several]
    exact snd_sample_ofTotals (weighted_ne_nil several) source

end Lindenmayer.Sampler
