import Mathlib
import AppAtlas.Proofs.Confidence

/-!
# Products of confidences

The confidence of a walk is a product, and walks whose product is below a floor are left out.  With
a floor of zero nothing is to be left out.  For exact numbers that is clear.  A product of doubles
can become zero although no factor is, but it never gets below: the sign of a product is the product
of the signs, and rounding and packing keep it.

Where walks are compared, doubles have to be numbers as well.  A product of two doubles need not be
one, but a product with a confidence is, as a confidence is finite.

* `Double.Nonneg`: the doubles that are not below zero, with their products.
* `Double.unpack_pack_ne`, `Double.mul_finite_ne`: what is a number stays one.
-/

namespace AppAtlas

/-- **Number types in which products do not get below zero.** -/
class Confidence.Nonnegative (κ : Type) [Confidence κ] : Prop extends Confidence.Ordered κ where
  zero_le_of_lt : ∀ a : κ, (0.0 : κ) < a → (0.0 : κ) ≤ a
  not_one_lt : ¬(1.0 : κ) < 0.0
  not_mul_lt : ∀ a b : κ, ¬a < 0.0 → ¬b < 0.0 → ¬a * b < 0.0

/-- **Number types in which walks can be weighed against each other**: what is not below for
confidences is transitive, and their products are numbers, from zero on. -/
class Confidence.Ranked (κ : Type) [Confidence κ] : Prop extends Confidence.Ordered κ where
  not_lt_trans : ∀ a b c : κ, Confidence.isUnit a → Confidence.isUnit b → Confidence.isUnit c →
    ¬a < b → ¬b < c → ¬a < c
  zero_le_one : (0.0 : κ) ≤ 1.0
  zero_le_mul : ∀ a b : κ, (0.0 : κ) ≤ a → Confidence.isUnit b → (0.0 : κ) ≤ a * b

/-! ### Doubles -/

namespace Double

open Float.Model Float.Model.UnpackedFloat

/-- A double that is not below zero: it has a positive sign, or is a zero of either sign, or is not
a number. -/
inductive Nonneg : UnpackedFloat → Prop
  | notANumber : Nonneg .notANumber
  | zero (s : Sign) : Nonneg (.zero s)
  | infinity : Nonneg (.infinity .positive)
  | finite (m : Nat) (e : Int) (h : 0 < m) : Nonneg (.finite .positive m e h)

theorem not_lt_zero_iff {a : Float} : ¬a < 0.0 ↔ Nonneg a.toModel.unpack := by
  have hzero : (0.0 : Float).toModel.unpack = .zero .positive := rfl
  rw [lt_iff_compare, hzero]
  cases a.toModel.unpack with
  | notANumber => simp [UnpackedFloat.compare, Nonneg.notANumber]
  | zero s => simp [UnpackedFloat.compare, Nonneg.zero]
  | infinity s =>
    cases s with
    | negative => exact iff_of_false (fun h => h rfl) nofun
    | positive => simp [UnpackedFloat.compare, Nonneg.infinity]
  | finite s m e h =>
    cases s with
    | negative => exact iff_of_false (fun h => h rfl) nofun
    | positive => simp [UnpackedFloat.compare, Nonneg.finite]

namespace Nonneg

variable {spec : Format} {a b : UnpackedFloat}

theorem roundWithAccuracy (m : Nat) (e : Int) (accuracy : Accuracy) :
    Nonneg (roundWithAccuracy spec .positive m e accuracy) := by
  rw [UnpackedFloat.roundWithAccuracy]
  dsimp only
  split
  · exact .zero _
  · exact .finite _ _ _

/-- **The product of doubles not below zero is not below zero**, before it is packed. -/
theorem mul (ha : Nonneg a) (hb : Nonneg b) : Nonneg (mul spec a b) := by
  cases ha with
  | notANumber => cases hb <;> exact .notANumber
  | zero s =>
    cases hb with
    | notANumber => exact .notANumber
    | zero s' => exact .zero _
    | infinity => exact .notANumber
    | finite m e h => exact .zero _
  | infinity =>
    cases hb with
    | notANumber => exact .notANumber
    | zero s' => exact .notANumber
    | infinity => exact .infinity
    | finite m e h => exact .infinity
  | finite m e h =>
    cases hb with
    | notANumber => exact .notANumber
    | zero s' => exact .zero _
    | infinity => exact .infinity
    | finite m' e' h' => exact roundWithAccuracy _ _ _

theorem unpack_packComponents (e : BitVec spec.exponentBits)
    (m : BitVec spec.mantissaBitsWithoutImplicit) :
    Nonneg (unpack spec (packComponents spec .positive e m)) := by
  rw [UnpackedFloat.unpack]
  simp only [unpackSign_packComponents, Sign.ofBitVec_toBitVec]
  split
  · split
    · exact .infinity
    · exact .notANumber
  · split
    · split
      · exact .zero _
      · exact .finite _ _ _
    · exact .finite _ _ _

/-- **Packing keeps a double from getting below zero**, also where it overflows. -/
theorem unpack_pack (h : Nonneg a) : Nonneg (unpack spec (pack spec a)) := by
  cases h with
  | notANumber => exact unpack_packComponents _ _
  | zero s =>
    rw [UnpackedFloat.pack, unpack_packedZero]
    exact .zero s
  | infinity => exact unpack_packComponents _ _
  | finite m e hm =>
    rw [UnpackedFloat.pack]
    split
    · exact unpack_packComponents _ _
    · split
      · exact unpack_packComponents _ _
      · exact unpack_packComponents _ _

end Nonneg

theorem unpack_packComponents_ne {spec : Format} {s : Sign} {e : BitVec spec.exponentBits}
    {m : BitVec spec.mantissaBitsWithoutImplicit}
    (h : e ≠ -BitVec.ofNat spec.exponentBits 1 ∨ m = 0) :
    unpack spec (packComponents spec s e m) ≠ .notANumber := by
  rw [UnpackedFloat.unpack]
  simp only [unpackExponent_packComponents, unpackMantissa_packComponents]
  rcases h with he | hm
  · rw [if_neg he]
    split
    · split <;> simp
    · simp
  · rw [hm]
    split
    · simp
    · split <;> simp

theorem unpack_pack_ne {spec : Format} {a : UnpackedFloat} (h : a ≠ .notANumber) :
    unpack spec (pack spec a) ≠ .notANumber := by
  cases a with
  | notANumber => exact absurd rfl h
  | zero s => exact unpack_packComponents_ne (.inr rfl)
  | infinity s => exact unpack_packComponents_ne (.inr rfl)
  | finite s m e hm =>
    rw [UnpackedFloat.pack]
    have hones : ∀ n, n + 1 < 2 ^ spec.exponentBits →
        BitVec.ofNat spec.exponentBits n ≠ -BitVec.ofNat spec.exponentBits 1 := by
      intro n hn heq
      have hnat := congrArg BitVec.toNat heq
      rw [BitVec.toNat_ofNat, Nat.mod_eq_of_lt (by omega)] at hnat
      rw [BitVec.neg_one_eq_allOnes, BitVec.toNat_allOnes] at hnat
      omega
    split
    · exact unpack_packComponents_ne (.inr rfl)
    · next hfits =>
      split
      · exact unpack_packComponents_ne (.inl (hones _ (by omega)))
      · refine unpack_packComponents_ne (.inl (hones 0 ?_))
        exact Nat.one_lt_two_pow (Nat.pos_iff_ne_zero.mp spec.he)

theorem zero_le_iff {a : Float} : (0.0 : Float) ≤ a ↔
    Nonneg a.toModel.unpack ∧ a.toModel.unpack ≠ .notANumber := by
  have hzero : (0.0 : Float).toModel.unpack = .zero .positive := rfl
  have hle : (0.0 : Float) ≤ a ↔
      ((UnpackedFloat.zero .positive).compare a.toModel.unpack).any (·.isLE) := by
    show decide ((0.0 : Float).toModel ≤ a.toModel) ↔ _
    rw [decide_eq_true_iff, ← hzero]
    rfl
  rw [hle]
  cases a.toModel.unpack with
  | notANumber => exact iff_of_false (by simp [UnpackedFloat.compare]) fun h => h.2 rfl
  | zero s => exact iff_of_true (by simp [UnpackedFloat.compare]) ⟨.zero s, by simp⟩
  | infinity s =>
    cases s with
    | negative => exact iff_of_false (by simp [UnpackedFloat.compare]) nofun
    | positive => exact iff_of_true (by simp [UnpackedFloat.compare]) ⟨.infinity, by simp⟩
  | finite s m e h =>
    cases s with
    | negative => exact iff_of_false (by simp [UnpackedFloat.compare]) nofun
    | positive => exact iff_of_true (by simp [UnpackedFloat.compare]) ⟨.finite m e h, by simp⟩

theorem exists_finite {a : Float} (h : Confidence.isUnit a) :
    ∃ m e hm, a.toModel.unpack = .finite .positive m e hm := by
  have hone : (1.0 : Float).toModel.unpack = .finite .positive (2 ^ 52) (-52) (by decide) := rfl
  rw [Confidence.isUnit, Bool.and_eq_true, decide_eq_true_iff, decide_eq_true_iff] at h
  have hpos : (UnpackedFloat.zero .positive).compare a.toModel.unpack = some .lt :=
    lt_iff_compare.mp h.1
  have hle : (a.toModel.unpack.compare (1.0 : Float).toModel.unpack).any (·.isLE) :=
    of_decide_eq_true (p := a.toModel ≤ (1.0 : Float).toModel) h.2
  rw [hone] at hle
  cases hunpack : a.toModel.unpack with
  | notANumber => rw [hunpack] at hpos; exact absurd hpos (by simp [UnpackedFloat.compare])
  | zero s => rw [hunpack] at hpos; exact absurd hpos (by simp [UnpackedFloat.compare])
  | infinity s =>
    cases s with
    | negative => rw [hunpack] at hpos; exact absurd hpos (by simp [UnpackedFloat.compare])
    | positive => rw [hunpack] at hle; exact absurd hle (by simp [UnpackedFloat.compare])
  | finite s m e hm =>
    cases s with
    | negative => rw [hunpack] at hpos; exact absurd hpos (by simp [UnpackedFloat.compare])
    | positive => exact ⟨m, e, hm, rfl⟩

theorem mul_finite_ne {spec : Format} {a : UnpackedFloat} {s : Sign} {m : Nat} {e : Int} {hm : 0 < m}
    (h : a ≠ .notANumber) : UnpackedFloat.mul spec a (.finite s m e hm) ≠ .notANumber := by
  cases a with
  | notANumber => exact absurd rfl h
  | zero s' => simp [UnpackedFloat.mul]
  | infinity s' => simp [UnpackedFloat.mul]
  | finite s' m' e' hm' =>
    rw [UnpackedFloat.mul, UnpackedFloat.roundWithAccuracy]
    dsimp only
    split <;> simp

end Double

instance : Confidence.Nonnegative Float where
  zero_le_of_lt a ha := by
    obtain ⟨x, y, hx, hy, hxy⟩ := Double.lt_iff.mp ha
    exact Double.le_of_order hx hy (by rw [hxy]; rfl)
  not_one_lt := by decide +kernel
  not_mul_lt a b ha hb := by
    rw [Double.not_lt_zero_iff] at ha hb ⊢
    exact (ha.mul hb).unpack_pack

instance : Confidence.Nonnegative Rat where
  zero_le_of_lt _ ha := Rat.le_of_lt ha
  not_one_lt := by decide +kernel
  not_mul_lt a b ha hb := by
    have hzero : (0.0 : Rat) = 0 := by norm_num
    replace ha : ¬a < (0.0 : Rat) := ha
    replace hb : ¬b < (0.0 : Rat) := hb
    show ¬a * b < (0.0 : Rat)
    rw [hzero, not_lt] at ha hb ⊢
    exact mul_nonneg ha hb

instance : Confidence.Ranked Float where
  not_lt_trans a b c ha hb hc hab hbc hac := by
    obtain ⟨y, hy⟩ := Double.exists_place hb
    obtain ⟨x, z, hx, hz, hxz⟩ := Double.lt_iff.mp hac
    have hxy : (Double.order x y).isGE := by
      rw [← Ordering.ne_lt_iff_isGE]
      exact fun hlt => hab (Double.lt_iff.mpr ⟨x, y, hx, hy, hlt⟩)
    have hyz : (Double.order y z).isGE := by
      rw [← Ordering.ne_lt_iff_isGE]
      exact fun hlt => hbc (Double.lt_iff.mpr ⟨y, z, hy, hz, hlt⟩)
    have hge := Std.TransCmp.isGE_trans hxy hyz
    rw [hxz] at hge
    exact absurd hge (by decide)
  zero_le_one := by decide +kernel
  zero_le_mul a b ha hb := by
    obtain ⟨hnonneg, hne⟩ := Double.zero_le_iff.mp ha
    obtain ⟨m, e, hm, hfinite⟩ := Double.exists_finite hb
    have hfactor : Double.Nonneg b.toModel.unpack := hfinite ▸ .finite m e hm
    refine Double.zero_le_iff.mpr ⟨(hnonneg.mul hfactor).unpack_pack, Double.unpack_pack_ne ?_⟩
    rw [hfinite]
    exact Double.mul_finite_ne hne

instance : Confidence.Ranked Rat where
  not_lt_trans a b c _ _ _ hab hbc := by
    rw [Rat.not_lt] at hab hbc ⊢
    exact hbc.trans hab
  zero_le_one := by decide +kernel
  zero_le_mul a b ha hb := by
    have hzero : (0.0 : Rat) = 0 := by norm_num
    have hb : (0.0 : Rat) < b := Confidence.zero_lt_of_isUnit hb
    replace ha : (0.0 : Rat) ≤ a := ha
    show (0.0 : Rat) ≤ a * b
    rw [hzero] at ha hb ⊢
    exact mul_nonneg ha hb.le

end AppAtlas
