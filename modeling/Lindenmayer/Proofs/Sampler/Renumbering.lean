import Mathlib.Data.List.Forall2
import Lindenmayer.Proofs.Sampler.Draws

/-!
# Samplers of renumbered pools

What a sampler draws is decided by the weights of its pool and by the random source; its entries
are only handed back.  So pools with the same weights, whose entries correspond one by one, draw
corresponding entries, and leave the source in the same state.
-/

namespace Lindenmayer.Sampler

variable {R : Nat → Nat → Prop}

/-- The pools have the same weights in the same order, and related entries with them. -/
def Renumbered (R : Nat → Nat → Prop) : List (Nat × Float) → List (Nat × Float) → Prop :=
  List.Forall₂ fun a b => R a.1 b.1 ∧ a.2 = b.2

/-- The samplers have the same form and the same totals, and related entries. -/
inductive Related (R : Nat → Nat → Prop) : Sampler → Sampler → Prop
  | nothing : Related R nothing nothing
  | single {a b : Nat} : R a b → Related R (single a) (single b)
  | cumulative {as bs : List Nat} (totals : Array Float) : List.Forall₂ R as bs →
    Related R (cumulative as.toArray totals) (cumulative bs.toArray totals)
  | table {as bs : List Nat} : List.Forall₂ R as bs →
    Related R (table as.toArray) (table bs.toArray)

/-! ### Making samplers -/

namespace Renumbered

variable {pool pool' : List (Nat × Float)} (renumbered : Renumbered R pool pool')
include renumbered

theorem weights_eq : pool.map Prod.snd = pool'.map Prod.snd := by
  rw [← List.forall₂_eq_eq_eq, List.forall₂_map_left_iff, List.forall₂_map_right_iff]
  exact renumbered.imp fun _ _ related => related.2

theorem entries : List.Forall₂ R (pool.map Prod.fst) (pool'.map Prod.fst) := by
  rw [List.forall₂_map_left_iff, List.forall₂_map_right_iff]
  exact renumbered.imp fun _ _ related => related.1

theorem foldl_eq (f : Float → Float → Float) (start : Float) :
    pool.foldl (fun total entry => f total entry.2) start =
      pool'.foldl (fun total entry => f total entry.2) start := by
  have folded : ∀ entries : List (Nat × Float), entries.foldl (fun total entry => f total entry.2)
      start = (entries.map Prod.snd).foldl f start := fun _ => List.foldl_map.symm
  rw [folded, folded, renumbered.weights_eq]

theorem totalWeight_eq : totalWeight pool = totalWeight pool' := renumbered.foldl_eq (· + ·) 0

theorem largestWeight_eq : largestWeight pool = largestWeight pool' :=
  renumbered.foldl_eq (fun largest weight => if largest < weight then weight else largest) 0

theorem rescale : Renumbered R (rescale pool) (rescale pool') := by
  unfold Sampler.rescale
  rw [renumbered.totalWeight_eq, renumbered.largestWeight_eq]
  split
  · exact renumbered
  · unfold Renumbered
    rw [List.forall₂_map_left_iff, List.forall₂_map_right_iff]
    refine renumbered.imp ?_
    rintro ⟨_, weight⟩ ⟨_, _⟩ ⟨related, rfl⟩
    exact ⟨related, rfl⟩

theorem ofTotals : Related R (ofTotals pool) (ofTotals pool') := by
  unfold Sampler.ofTotals
  rw [renumbered.weights_eq]
  exact .cumulative _ renumbered.entries

theorem tableEntries : List.Forall₂ R (tableEntries pool) (tableEntries pool') := by
  have replicate : ∀ {a b} (count : Nat), R a b →
      List.Forall₂ R (List.replicate count a) (List.replicate count b) := by
    intro a b count related
    induction count with
    | zero => exact .nil
    | succ count ih => exact .cons related ih
  unfold Sampler.tableEntries
  rw [renumbered.totalWeight_eq]
  refine List.rel_flatMap renumbered ?_
  rintro ⟨a, weight⟩ ⟨b, _⟩ ⟨related, rfl⟩
  exact replicate _ related

theorem ofShares : Related R (ofShares pool) (ofShares pool') := by
  have shares := renumbered.tableEntries
  unfold Sampler.ofShares
  cases here : Sampler.tableEntries pool with
  | nil =>
    rw [here, List.forall₂_nil_left_iff] at shares
    rw [shares]
    exact renumbered.ofTotals
  | cons entry rest =>
    rw [here] at shares
    obtain ⟨entry', rest', _, _, there⟩ := List.forall₂_cons_left_iff.mp shares
    rw [there] at shares ⊢
    exact .table shares

end Renumbered

/-- The sampler of a pool depends on its usable part only. -/
theorem related_ofPool {pool pool' : List (Nat × Float)}
    (renumbered : Renumbered R (pool.filter fun entry => isUsable entry.2)
      (pool'.filter fun entry => isUsable entry.2)) (tabulate : Bool) :
    Related R (ofPool pool tabulate) (ofPool pool' tabulate) := by
  unfold ofPool
  have rescaled := renumbered.rescale
  generalize rescale (pool.filter fun entry => isUsable entry.2) = weighted at rescaled ⊢
  generalize rescale (pool'.filter fun entry => isUsable entry.2) = weighted' at rescaled ⊢
  cases rescaled with
  | nil => exact .nothing
  | cons first rest =>
    cases rest with
    | nil => exact .single first.1
    | cons second rest =>
      have all : Renumbered R _ _ := .cons first (.cons second rest)
      cases tabulate with
      | false => exact all.ofTotals
      | true => exact all.ofShares

/-! ### Drawing -/

theorem rel_getElem? {as bs : List Nat} (related : List.Forall₂ R as bs) (index : Nat) :
    Option.Rel R as[index]? bs[index]? := by
  induction related generalizing index with
  | nil => exact .none
  | cons first _ ih =>
    cases index with
    | zero => exact .some first
    | succ index => exact ih index

/-- Related samplers draw related entries and leave the source in the same state. -/
theorem Related.sample {G : Type} [WordSource G] {a b : Sampler} (related : Related R a b)
    (source : G) :
    Option.Rel R (a.sample source).1 (b.sample source).1 ∧
      (a.sample source).2 = (b.sample source).2 := by
  cases related with
  | nothing => exact ⟨.none, rfl⟩
  | single first => exact ⟨.some first, rfl⟩
  | cumulative totals entries =>
    cases last : totals.back? with
    | none => simp only [Sampler.sample, last]; exact ⟨.none, trivial⟩
    | some total =>
      simp only [Sampler.sample, last, entryAbove, List.size_toArray, entries.length_eq,
        List.getElem?_toArray, and_true]
      exact rel_getElem? entries _
  | @table as bs entries =>
    cases entries with
    | nil => exact ⟨.none, rfl⟩
    | cons first rest =>
      simp only [Sampler.sample, List.isEmpty_toArray, List.isEmpty_cons, Bool.false_eq_true,
        if_false, List.size_toArray, List.length_cons, rest.length_eq, List.getElem?_toArray,
        and_true]
      exact rel_getElem? (.cons first rest) _

end Lindenmayer.Sampler
