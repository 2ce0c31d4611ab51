import Mathlib
import AppAtlas.Proofs.Confidence

/-!
# Doubles that are not apart

Two doubles of which neither is below the other have the same place in the order.  The two zeros
share their place; anywhere else the place has the mantissa and the exponent, and these determine
the bits.  No confidence is a zero, so doubles are a number type in which confidences that are not
apart are the same.
-/

namespace AppAtlas

namespace Double

open Float.Model

theorem order_eq_iff {x y : Int × Int × Int} : order x y = .eq ↔ x = y := by
  obtain ⟨x₁, x₂, x₃⟩ := x
  obtain ⟨y₁, y₂, y₃⟩ := y
  simp [order, compareLex_eq_eq, compareOn]

/-- **Only the two zeros share a place.** -/
theorem unpacked_eq_of_place {a b : UnpackedFloat} (hsame : place? b = place? a)
    (hsome : (place? a).isSome) (hzero : place? a ≠ some (0, 0, 0)) : a = b := by
  -- the class comes first, so only doubles of one class are left to compare
  fun_cases place? a <;> fun_cases place? b <;> simp_all [place?]

theorem eq_of_place {a b : Float} {x : Int × Int × Int} (ha : placeOf? a = some x)
    (hb : placeOf? b = some x) (hx : x ≠ (0, 0, 0)) : a = b := by
  have hunpack : a.toModel.unpack = b.toModel.unpack := by
    rw [placeOf?] at ha hb
    refine unpacked_eq_of_place (hb.trans ha.symm) ?_ ?_
    · rw [ha]
      rfl
    · rw [ha]
      exact fun h => hx (Option.some.inj h)
  have hbits := (UnpackedFloat.unpack_inj_of_valid a.toModel.valid b.toModel.valid).mp hunpack
  exact Float.toBits_inj.mp (UInt64.toBitVec_inj.mp hbits)

theorem place_ne_zero {a : Float} (h : (0.0 : Float) < a) {x : Int × Int × Int}
    (hx : placeOf? a = some x) : x ≠ (0, 0, 0) := by
  rintro rfl
  obtain ⟨y, z, hy, hz, hlt⟩ := lt_iff.mp h
  obtain rfl : (0, 0, 0) = y := Option.some.inj hy
  obtain rfl : (0, 0, 0) = z := Option.some.inj (hx.symm.trans hz)
  cases hlt

/-- **Doubles above zero that are not apart are the same.** -/
theorem eq_of_not_lt {a b : Float} (ha : (0.0 : Float) < a) (hb : (0.0 : Float) < b)
    (hab : ¬a < b) (hba : ¬b < a) : a = b := by
  obtain ⟨-, x, -, hx, -⟩ := lt_iff.mp ha
  obtain ⟨-, y, -, hy, -⟩ := lt_iff.mp hb
  have hlt : order x y ≠ .lt := fun h => hab (lt_iff.mpr ⟨x, y, hx, hy, h⟩)
  have hgt : order y x ≠ .lt := fun h => hba (lt_iff.mpr ⟨y, x, hy, hx, h⟩)
  have heq : order x y = .eq := by
    have hswap : order y x = (order x y).swap := Std.OrientedCmp.eq_swap
    rw [hswap] at hgt
    cases h : order x y with
    | lt => exact absurd h hlt
    | eq => rfl
    | gt => rw [h] at hgt; exact absurd rfl hgt
  obtain rfl := order_eq_iff.mp heq
  exact eq_of_place hx hy (place_ne_zero ha hx)

end Double

instance : Confidence.Linear Float where
  eq_of_not_lt _ _ ha hb :=
    Double.eq_of_not_lt (Confidence.zero_lt_of_isUnit ha) (Confidence.zero_lt_of_isUnit hb)

end AppAtlas
