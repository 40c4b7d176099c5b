import Mathlib.Data.Prod.Lex
import Lindenmayer.Proofs.Decimal.Arithmetic

/-!
# Comparing doubles

Every double but NaN has a place on a line, and doubles are compared by their places.  So the
comparisons of doubles are those of a linear order, except that nothing holds of NaN, and that both
zeros have one place.
-/

open Float.Model

namespace Lindenmayer.Decimal

/-! ### Places -/

/-- A place on a line: the side of zero that it is on, or 0 for zero itself, then the exponent, then
the mantissa. -/
def place (side exponent mantissa : ℤ) : ℤ ×ₗ ℤ ×ₗ ℤ := toLex (side, toLex (exponent, mantissa))

/-- The place of a double.  Infinities are further away than everything on their side, and below
zero the line runs the other way. -/
def place? : UnpackedFloat → Option (ℤ ×ₗ ℤ ×ₗ ℤ)
  | .notANumber => none
  | .infinity .positive => some (place 2 0 0)
  | .infinity .negative => some (place (-2) 0 0)
  | .zero _ => some (place 0 0 0)
  | .finite .positive m e _ => some (place 1 e m)
  | .finite .negative m e _ => some (place (-1) (-e) (-m))

theorem compare_place (s s' e e' m m' : ℤ) :
    compare (place s e m) (place s' e' m') =
      (compare s s').then ((compare e e').then (compare m m')) := rfl

theorem compare_neg_neg (a b : ℤ) : compare (-a) (-b) = (compare a b).swap := by
  rw [Int.compare_swap]
  rcases lt_trichotomy a b with less | same | greater
  · rw [Int.compare_eq_gt.mpr less, Int.compare_eq_gt.mpr (by omega)]
  · rw [same, Std.ReflOrd.compare_self, Std.ReflOrd.compare_self]
  · rw [Int.compare_eq_lt.mpr greater, Int.compare_eq_lt.mpr (by omega)]

theorem compare_natCast (m n : ℕ) : compare (m : ℤ) (n : ℤ) = compare m n := by
  rcases lt_trichotomy m n with less | same | greater
  · rw [Nat.compare_eq_lt.mpr less, Int.compare_eq_lt.mpr (by omega)]
  · rw [same, Std.ReflOrd.compare_self, Std.ReflOrd.compare_self]
  · rw [Nat.compare_eq_gt.mpr greater, Int.compare_eq_gt.mpr (by omega)]

/-- Doubles are compared by their places. -/
theorem compare_eq (u v : UnpackedFloat) :
    u.compare v = (place? u).bind fun x => (place? v).map fun y => compare x y := by
  -- The sides differ in all cases but those of two finite numbers of one sign.
  cases u with
  | notANumber => cases v <;> rfl
  | infinity sign =>
    cases v with
    | notANumber | zero => cases sign <;> rfl
    | infinity sign' | finite sign' => cases sign <;> cases sign' <;> rfl
  | zero sign =>
    cases v with
    | notANumber | zero => rfl
    | infinity sign' | finite sign' => cases sign' <;> rfl
  | finite sign m e =>
    cases v with
    | notANumber | zero => cases sign <;> rfl
    | infinity sign' => cases sign <;> cases sign' <;> rfl
    | finite sign' m' e' =>
      cases sign <;> cases sign'
      case positive.positive =>
        show some _ = some (compare (place 1 e m) (place 1 e' m'))
        rw [compare_place, compare_natCast]
        rfl
      case negative.negative =>
        show some _ = some (compare (place (-1) (-e) (-m)) (place (-1) (-e') (-m')))
        rw [compare_place, compare_neg_neg e, compare_neg_neg m, compare_natCast,
          ← Ordering.swap_then]
        rfl
      all_goals rfl

theorem le_iff_place {u v : UnpackedFloat} :
    u.le v = true ↔ ∃ x ∈ place? u, ∃ y ∈ place? v, x ≤ y := by
  rw [UnpackedFloat.le, compare_eq]
  cases place? u <;> cases place? v <;> simp [Ordering.isLE_iff_ne_gt, compare_le_iff_le]

theorem lt_iff_place {u v : UnpackedFloat} :
    u.lt v = true ↔ ∃ x ∈ place? u, ∃ y ∈ place? v, x < y := by
  rw [UnpackedFloat.lt, compare_eq]
  cases place? u <;> cases place? v <;> simp [compare_lt_iff_lt]

theorem beq_iff_place {u v : UnpackedFloat} :
    u.beq v = true ↔ ∃ x ∈ place? u, x ∈ place? v := by
  rw [UnpackedFloat.beq, compare_eq]
  cases place? u with
  | none => simp
  | some x =>
    cases place? v with
    | none => simp
    | some y =>
      show (some (compare x y) == some .eq) = true ↔ _
      rw [beq_iff_eq, Option.some_inj, compare_eq_iff_eq]
      constructor
      · rintro rfl
        exact ⟨x, rfl, rfl⟩
      · rintro ⟨_, ⟨⟩, ⟨⟩⟩
        rfl

/-! ### Comparisons of doubles -/

theorem le_iff_unpacked {x y : Float} : x ≤ y ↔ x.toModel.unpack.le y.toModel.unpack = true := by
  show decide _ = true ↔ _
  exact decide_eq_true_iff

theorem le_trans_double {x y z : Float} (below : x ≤ y) (above : y ≤ z) : x ≤ z := by
  rw [le_iff_unpacked, le_iff_place] at *
  obtain ⟨a, hasPlace, b, hasPlace', le⟩ := below
  obtain ⟨b', same, c, hasPlace'', le'⟩ := above
  obtain rfl := Option.mem_unique hasPlace' same
  exact ⟨a, hasPlace, c, hasPlace'', le.trans le'⟩

instance transLe : Trans ((· ≤ ·) : Float → Float → Prop) (· ≤ ·) (· ≤ ·) := ⟨le_trans_double⟩

/-- Doubles that are equal in a comparison are below the same ones. -/
theorem le_iff_le_of_beq {x y : Float} (same : (x == y) = true) (z : Float) : x ≤ z ↔ y ≤ z := by
  obtain ⟨a, hasPlace, hasPlace'⟩ := beq_iff_place.mp same
  have back : x ≤ y ∧ y ≤ x := by
    rw [le_iff_unpacked, le_iff_unpacked, le_iff_place, le_iff_place]
    exact ⟨⟨a, hasPlace, a, hasPlace', le_rfl⟩, a, hasPlace', a, hasPlace, le_rfl⟩
  exact ⟨le_trans_double back.2, le_trans_double back.1⟩

namespace Magnitude

variable {a b : Magnitude}

theorem exists_place?_signed (v : Magnitude) (sign : UnpackedFloat.Sign) :
    ∃ x, place? (v.signed sign) = some x := by
  unfold signed
  split
  · exact ⟨place 0 0 0, rfl⟩
  · cases sign <;> exact ⟨_, rfl⟩

theorem double_le_double (finite : a.IsFinite) (finite' : b.IsFinite) :
    a.double ≤ b.double ↔ a.value ≤ b.value := by
  have order := (lt_signed_iff finite'.isCanonical finite.isCanonical).not
  rw [not_lt] at order
  rw [← order, le_iff_unpacked]
  show UnpackedFloat.le
    (UnpackedFloat.unpack .binary64 (UnpackedFloat.pack .binary64 (a.signed .positive)))
    (UnpackedFloat.unpack .binary64 (UnpackedFloat.pack .binary64 (b.signed .positive))) =
      true ↔ _
  rw [unpack_pack_signed finite, unpack_pack_signed finite', le_iff_place, lt_iff_place]
  obtain ⟨x, here⟩ := a.exists_place?_signed .positive
  obtain ⟨y, there⟩ := b.exists_place?_signed .positive
  simp [here, there]

end Magnitude

end Lindenmayer.Decimal
