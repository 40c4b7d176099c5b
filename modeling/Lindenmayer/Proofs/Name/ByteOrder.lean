import Lindenmayer.Name
import Mathlib.Tactic.SplitIfs

/-!
# The byte order of names

Names are compared by code points and stored as UTF-8.  Both give one order: the bytes of two
characters differ within the shorter of the two encodings, and the first difference is the same way
round as that of the code points.  Sets and tables of names are therefore listed in byte order.
-/

namespace Lindenmayer

namespace Name

/-- The UTF-8 bytes of a name. -/
def bytes (name : Name) : List UInt8 := name.text.toUTF8.data.toList

theorem bytes_eq_flatMap (name : Name) :
    name.bytes = name.chars.flatMap String.utf8EncodeChar := by
  have spelled : name.text = String.ofList name.chars := by simp [chars]
  rw [bytes, spelled, String.toUTF8_eq_toByteArray, String.toByteArray_ofList, List.utf8Encode,
    List.data_toByteArray]

/-! ### Characters -/

theorem toNat_val_lt (c : Char) : c.val.toNat < 1114112 := by
  rcases c.valid with below | ⟨-, above⟩
  · omega
  · exact above

/-- The bytes of a smaller character come first, whatever follows them. -/
theorem utf8EncodeChar_append_lt {c d : Char} (less : c < d) (rest rest' : List UInt8) :
    String.utf8EncodeChar c ++ rest < String.utf8EncodeChar d ++ rest' := by
  have boundC := toNat_val_lt c
  have boundD := toNat_val_lt d
  rw [Char.lt_def, UInt32.lt_iff_toNat_lt] at less
  -- One case for each pair of lengths.  Leading bytes grow with the length of the encoding, and
  -- encodings of one length hold the digits of the code point, highest first.
  simp only [String.utf8EncodeChar]
  split_ifs <;>
    simp (disch := omega) only [List.cons_append, List.nil_append, List.cons_lt_cons_iff,
      UInt8.lt_iff_toNat_lt, ← UInt8.toNat_inj, UInt8.toNat_ofNat', Nat.mod_eq_of_lt] <;>
    omega

theorem flatMap_utf8EncodeChar_lt {cs ds : List Char} (less : cs < ds) :
    cs.flatMap String.utf8EncodeChar < ds.flatMap String.utf8EncodeChar := by
  induction less with
  | @nil d ds =>
    obtain ⟨byte, bytes, encoded⟩ :=
      List.exists_cons_of_ne_nil (String.utf8EncodeChar_ne_nil (c := d))
    rw [List.flatMap_nil, List.flatMap_cons, encoded, List.cons_append]
    exact List.nil_lt_cons _ _
  | rel less =>
    rw [List.flatMap_cons, List.flatMap_cons]
    exact utf8EncodeChar_append_lt less _ _
  | cons _ ih =>
    rw [List.flatMap_cons, List.flatMap_cons]
    exact List.append_left_lt ih

/-! ### Names -/

theorem bytes_lt_of_compare {a b : Name} (less : compare a b = .lt) : a.bytes < b.bytes := by
  rw [compare_def] at less
  rw [bytes_eq_flatMap, bytes_eq_flatMap]
  exact flatMap_utf8EncodeChar_lt (String.lt_iff.mp (compareOfLessAndEq_eq_lt.mp less))

/-- Names are in the order of their bytes. -/
theorem compare_eq_lt_iff_bytes_lt {a b : Name} : compare a b = .lt ↔ a.bytes < b.bytes := by
  constructor
  · exact bytes_lt_of_compare
  · intro less
    cases order : compare a b with
    | lt => rfl
    | eq =>
      rw [Std.LawfulEqOrd.eq_of_compare order] at less
      exact absurd less (List.lt_irrefl _)
    | gt =>
      have greater := bytes_lt_of_compare (Std.OrientedCmp.gt_iff_lt.mp order)
      exact absurd greater (List.lt_asymm less)

end Name

/-! ### Lists in the order of names -/

theorem nodup_of_pairwise_compare {names : List Name}
    (sorted : names.Pairwise fun a b => compare a b = .lt) : names.Nodup := by
  apply sorted.imp
  rintro name _ less rfl
  rw [Std.ReflOrd.compare_self] at less
  cases less

/-- Two lists in the order of names are equal if they have the same members. -/
theorem eq_of_pairwise_compare {names others : List Name}
    (sorted : names.Pairwise fun a b => compare a b = .lt)
    (sorted' : others.Pairwise fun a b => compare a b = .lt)
    (same : ∀ name, name ∈ names ↔ name ∈ others) : names = others := by
  have perm : names.Perm others := (List.perm_ext_iff_of_nodup
    (nodup_of_pairwise_compare sorted) (nodup_of_pairwise_compare sorted')).mpr same
  refine perm.eq_of_pairwise ?_ sorted sorted'
  intro a b _ _ less greater
  exact absurd greater (Std.OrientedCmp.not_lt_of_lt less)

/-- The set of some names lists what sorting the names leaves, once repetitions are erased. -/
theorem toList_ofList_eq_sort (names : List Name) :
    (Std.ExtTreeSet.ofList names compare).toList = (Name.sort names).eraseReps := by
  apply eq_of_pairwise_compare Std.ExtTreeSet.ordered_toList
    (pairwise_eraseReps (pairwise_inOrder names))
  intro name
  simp

theorem nodup_toList (names : NameSet) : names.toList.Nodup :=
  nodup_of_pairwise_compare Std.ExtTreeSet.ordered_toList

/-- A set of names is listed in byte order. -/
theorem pairwise_bytes_toList (names : NameSet) :
    names.toList.Pairwise fun a b => a.bytes < b.bytes :=
  Std.ExtTreeSet.ordered_toList.imp Name.compare_eq_lt_iff_bytes_lt.mp

end Lindenmayer
