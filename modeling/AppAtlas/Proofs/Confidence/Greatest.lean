import AppAtlas.Proofs.Double

/-!
# The greatest of some positive numbers

The most similar of some nodes are found by comparing their similarities one after the other, from
zero on.  Similarities that count are above zero.  Among such numbers the greatest one does not hang
on the order of the comparisons, nor on how often a number occurs.

* `Confidence.Separated`: number types in which positive numbers that are not apart are the same.
* `Confidence.foldl_max_congr`: lists with the same positive entries have the same greatest entry.
-/

namespace AppAtlas

open List

/-- **Number types in which two positive numbers of which neither is below the other are the same**,
and what is not below a positive number is positive. -/
class Confidence.Separated (κ : Type) [Confidence κ] : Prop extends Confidence.Ordered κ where
  pos_of_le : ∀ a b : κ, (0.0 : κ) < a → a ≤ b → (0.0 : κ) < b
  eq_of_pos : ∀ a b : κ, (0.0 : κ) < a → (0.0 : κ) < b → ¬a < b → ¬b < a → a = b

theorem Double.le_iff {a b : Float} :
    a ≤ b ↔ ∃ x y, placeOf? a = some x ∧ placeOf? b = some y ∧ (order x y).isLE := by
  refine ⟨fun h => ?_, fun ⟨x, y, hx, hy, hxy⟩ => le_of_order hx hy hxy⟩
  have hle : (a.toModel.unpack.compare b.toModel.unpack).any (·.isLE) :=
    of_decide_eq_true (p := a.toModel ≤ b.toModel) h
  rw [compare_eq_order, Option.any_eq_true] at hle
  obtain ⟨o, ho, hisLE⟩ := hle
  obtain ⟨x, hx, hmap⟩ := Option.bind_eq_some_iff.mp ho
  obtain ⟨y, hy, rfl⟩ := Option.map_eq_some_iff.mp hmap
  exact ⟨x, y, hx, hy, hisLE⟩

instance : Confidence.Separated Float where
  pos_of_le a b ha hab := by
    obtain ⟨z, x, hz, hx, hzx⟩ := Double.lt_iff.mp ha
    obtain ⟨x', y, hx', hy, hxy⟩ := Double.le_iff.mp hab
    obtain rfl : x = x' := Option.some.inj (hx.symm.trans hx')
    exact Double.lt_iff.mpr ⟨z, y, hz, hy, Std.TransCmp.lt_of_lt_of_isLE hzx hxy⟩
  eq_of_pos _ _ := Double.eq_of_not_lt

instance : Confidence.Separated Rat where
  pos_of_le _ _ ha hab := lt_of_lt_of_le ha hab
  eq_of_pos _ _ _ _ hab hba := le_antisymm (not_lt.mp hba) (not_lt.mp hab)

namespace Confidence

variable {κ : Type} [Confidence κ] {xs ys : List κ}

theorem foldl_max_mem_of_pos (h : ∀ x ∈ xs, (0.0 : κ) < x) (hne : xs ≠ []) :
    xs.foldl max 0.0 ∈ xs := by
  cases xs with
  | nil => exact absurd rfl hne
  | cons x xs =>
    have hfirst : max 0.0 x = x := if_pos (h x mem_cons_self)
    rw [foldl_cons, hfirst]
    exact foldl_max_mem xs x

/-- **The greatest of some positive numbers depends on the numbers alone.** -/
theorem foldl_max_congr [Separated κ] (hpos : ∀ x ∈ xs, (0.0 : κ) < x) (h : ∀ x, x ∈ xs ↔ x ∈ ys) :
    xs.foldl max 0.0 = ys.foldl max 0.0 := by
  by_cases hxs : xs = []
  · have hys : ys = [] := eq_nil_iff_forall_not_mem.mpr fun y hy =>
      not_mem_nil (hxs ▸ (h y).mpr hy)
    rw [hxs, hys]
  · have hys : ys ≠ [] := fun hys => hxs <| eq_nil_iff_forall_not_mem.mpr fun x hx =>
      not_mem_nil (hys ▸ (h x).mp hx)
    have hx := foldl_max_mem_of_pos hpos hxs
    have hy := foldl_max_mem_of_pos (fun y hy => hpos y ((h y).mpr hy)) hys
    -- each is an entry of both lists, so neither is below the other
    refine Separated.eq_of_pos _ _ (hpos _ hx) (hpos _ ((h _).mpr hy)) ?_ ?_
    · exact not_foldl_max_lt_mem xs 0.0 _ (mem_cons_of_mem _ ((h _).mpr hy))
    · exact not_foldl_max_lt_mem ys 0.0 _ (mem_cons_of_mem _ ((h _).mp hx))

end Confidence

end AppAtlas
