import AppAtlas.Text.Letter
import AppAtlas.Text.Lines

/-!
# Letters of either case

Making the capitals of a text small changes the twenty-six capitals and no other character, so a
class of characters ignores case as soon as it has both or none of each of the twenty-six pairs.
Readers that ask for such classes and for marks read the same before and after.

* `IgnoresCase`, `ignoresCase_of_all`: classes that ignore case, checked pair by pair.
* `toLower_eq_iff`, `mem_lower_iff`: marks stay, and none is added.
* `forall_mem_lower`, `newlines_lower`: what readers ask of a text.
-/

namespace AppAtlas.Text

open List

/-! ### Characters -/

theorem toLower_cases (c : Char) : c.toLower = c ∨ ∃ n < 26, c = Char.ofNat (65 + n) := by
  unfold Char.toLower
  split
  · next hc =>
    have hrange : 65 ≤ c.toNat ∧ c.toNat ≤ 90 := by
      simpa [UInt32.le_iff_toNat_le] using hc
    refine .inr ⟨c.toNat - 65, by omega, ?_⟩
    rw [Nat.add_sub_cancel' hrange.1, Char.ofNat_toNat]
  · exact .inl rfl

theorem of_capital {p : Char → Bool}
    (h : (range 26).all (fun n => p (Char.ofNat (65 + n))) = true) {n : Nat} (hn : n < 26) :
    p (Char.ofNat (65 + n)) :=
  all_eq_true.mp h n (mem_range.mpr hn)

/-- A class of characters that has both or none of a capital and its small letter. -/
def IgnoresCase (p : Char → Bool) : Prop :=
  ∀ c : Char, p c.toLower = p c

/-- **A class ignores case if it does so for each of the twenty-six capitals.** -/
theorem ignoresCase_of_all {p : Char → Bool} (h : (range 26).all
      (fun n => p (Char.ofNat (65 + n)).toLower == p (Char.ofNat (65 + n))) = true) :
    IgnoresCase p := by
  intro c
  rcases toLower_cases c with hsame | ⟨n, hn, rfl⟩
  · rw [hsame]
  · exact beq_iff_eq.mp (of_capital (p := fun c => p c.toLower == p c) h hn)

/-- **A mark is not made by making letters small**, and not unmade. -/
theorem toLower_eq_iff {mark : Char} (hmark : mark.isAlpha = false) {c : Char} :
    c.toLower = mark ↔ c = mark := by
  rcases toLower_cases c with hsame | ⟨n, hn, rfl⟩
  · rw [hsame]
  · -- a capital and its small letter are letters, so neither is the mark
    have hletters := of_capital (p := fun c => c.isAlpha && c.toLower.isAlpha) (by decide) hn
    rw [Bool.and_eq_true] at hletters
    constructor
    · rintro rfl
      exact absurd (hmark.symm.trans hletters.2) (by decide)
    · rintro rfl
      exact absurd (hmark.symm.trans hletters.1) (by decide)

/-! ### Texts -/

@[simp] theorem lower_nil : lower [] = [] := rfl

@[simp] theorem lower_cons (c : Char) (cs : List Char) : lower (c :: cs) = c.toLower :: lower cs := rfl

@[simp] theorem lower_append (a b : List Char) : lower (a ++ b) = lower a ++ lower b :=
  map_append

theorem head?_lower (cs : List Char) : (lower cs).head? = cs.head?.map Char.toLower :=
  head?_map

theorem lower_lower (cs : List Char) : lower (lower cs) = lower cs := by
  rw [lower, lower, map_map]
  refine map_congr_left fun c _ => ?_
  rcases toLower_cases c with hsame | ⟨n, hn, rfl⟩
  · rw [Function.comp_apply, hsame, hsame]
  · exact beq_iff_eq.mp (of_capital (p := fun c => c.toLower.toLower == c.toLower) (by decide) hn)

theorem lowerString_lowerString (s : String) : lowerString (lowerString s) = lowerString s := by
  rw [lowerString, lowerString, onString, toList_onString, lower_lower]
  rfl

theorem lowerString_ofList (cs : List Char) :
    lowerString (String.ofList cs) = String.ofList (lower cs) := by
  rw [lowerString, onString, String.toList_ofList]

theorem mem_lower_iff {mark : Char} (hmark : mark.isAlpha = false) {cs : List Char} :
    mark ∈ lower cs ↔ mark ∈ cs := by
  induction cs with
  | nil => exact Iff.rfl
  | cons c cs ih =>
    rw [lower_cons, mem_cons, mem_cons, ih, eq_comm, toLower_eq_iff hmark, eq_comm]

@[simp] theorem newlines_lower (cs : List Char) : newlines (lower cs) = newlines cs := by
  have hline : (fun c => c == '\n') ∘ Char.toLower = (fun c => c == '\n') := by
    funext c
    rw [Function.comp_apply, Bool.eq_iff_iff, beq_iff_eq, beq_iff_eq]
    exact toLower_eq_iff (by decide)
  rw [newlines, newlines, lower, countP_map, hline]

theorem forall_mem_lower {p : Char → Bool} (hp : IgnoresCase p) {b : Bool} {cs : List Char}
    (h : ∀ c ∈ cs, p c = b) : ∀ c ∈ lower cs, p c = b := by
  intro c hc
  obtain ⟨d, hd, rfl⟩ := mem_map.mp hc
  rw [hp, h d hd]

theorem forall_mem_map_toLower {p : Char → Bool} (hp : IgnoresCase p) {b : Bool} {o : Option Char}
    (h : ∀ c ∈ o, p c = b) : ∀ c ∈ o.map Char.toLower, p c = b := by
  intro c hc
  obtain ⟨d, hd, rfl⟩ := Option.map_eq_some_iff.mp hc
  rw [hp, h d hd]

theorem map_toLower_eq_some_iff {mark : Char} (hmark : mark.isAlpha = false) {o : Option Char} :
    o.map Char.toLower = some mark ↔ o = some mark := by
  cases o with
  | none => simp
  | some c => simp [toLower_eq_iff hmark]

end AppAtlas.Text
