import AppAtlas.Text.Lines
import Mathlib.Data.List.Forall2

/-!
# Offsets and the lines they lie on

A text's line index holds the byte offsets at which its lines start.  It says of each place between
two characters how many line ends stand before it, and of two texts it says the same as soon as
their characters take the same bytes and their line ends stand at the same places.

* `Lines.lineOf_mono`: a later offset lies on no earlier line.
* `AlikeInSpan`, `Lines.of_eq_of_alikeInSpan`: texts with one line index.
-/

namespace AppAtlas.Text

open List

/-! ### The line of a place -/

theorem lineStartsFrom_append (offset : Nat) (before after : List Char) :
    lineStartsFrom offset (before ++ after) =
      lineStartsFrom offset before ++ lineStartsFrom (offset + byteSize before) after := by
  induction before generalizing offset with
  | nil => rfl
  | cons c before ih =>
    rw [cons_append, lineStartsFrom, lineStartsFrom, ih, byteSize_cons, Nat.add_assoc]
    by_cases hc : c = '\n'
    · rw [if_pos hc, if_pos hc]
      rfl
    · rw [if_neg hc, if_neg hc]

theorem mem_lineStartsFrom_bounds {offset start : Nat} {cs : List Char}
    (h : start ∈ lineStartsFrom offset cs) : offset < start ∧ start ≤ offset + byteSize cs := by
  induction cs generalizing offset with
  | nil => cases h
  | cons c cs ih =>
    have hsize := c.utf8Size_pos
    have hlater : start ∈ lineStartsFrom (offset + c.utf8Size) cs →
        offset < start ∧ start ≤ offset + byteSize (c :: cs) := by
      intro hstart
      have := ih hstart
      rw [byteSize_cons]
      omega
    rw [lineStartsFrom] at h
    split at h
    · rcases mem_cons.mp h with rfl | h
      · rw [byteSize_cons]
        omega
      · exact hlater h
    · exact hlater h

/-- **The line of a place** is one more than the number of line ends before it. -/
theorem Lines.lineOf_append (before after : List Char) :
    (Lines.of (before ++ after)).lineOf (byteSize before) = newlines before + 1 := by
  have hbefore : (lineStartsFrom 0 before).countP (· ≤ byteSize before) = newlines before := by
    have hcount : (lineStartsFrom 0 before).length + 1 = newlines before + 1 := Lines.count_of before
    rw [countP_eq_length.mpr]
    · omega
    · intro start hstart
      have := mem_lineStartsFrom_bounds hstart
      simp only [decide_eq_true_eq]
      omega
  have hafter : (lineStartsFrom (0 + byteSize before) after).countP (· ≤ byteSize before) = 0 := by
    rw [countP_eq_zero]
    intro start hstart
    have := mem_lineStartsFrom_bounds hstart
    simp only [decide_eq_true_eq]
    omega
  rw [Lines.lineOf, Lines.of, countP_cons, lineStartsFrom_append, countP_append, hbefore,
    hafter]
  simp

theorem Lines.lineOf_mono (lines : Lines) {a b : Nat} (h : a ≤ b) :
    lines.lineOf a ≤ lines.lineOf b := by
  apply countP_mono_left
  intro start _ hstart
  simp only [decide_eq_true_eq] at hstart ⊢
  omega

/-! ### Texts with one line index -/

/-- The byte offsets of the line ends of a text, its first character being at `offset`. -/
def newlineOffsetsFrom (offset : Nat) : List Char → List Nat
  | [] => []
  | c :: cs =>
    if c = '\n' then offset :: newlineOffsetsFrom (offset + c.utf8Size) cs
    else newlineOffsetsFrom (offset + c.utf8Size) cs

theorem lineStartsFrom_eq_map (offset : Nat) (cs : List Char) :
    lineStartsFrom offset cs = (newlineOffsetsFrom offset cs).map (· + 1) := by
  induction cs generalizing offset with
  | nil => rfl
  | cons c cs ih =>
    rw [lineStartsFrom, newlineOffsetsFrom, ih]
    by_cases hc : c = '\n'
    · subst hc
      rfl
    · rw [if_neg hc, if_neg hc]

/-- Character by character, two texts take the same bytes and have their line ends in the same
places. -/
def AlikeInSpan : List Char → List Char → Prop :=
  Forall₂ fun c d => d.utf8Size = c.utf8Size ∧ (d = '\n' ↔ c = '\n')

namespace AlikeInSpan

variable {a b : List Char}

theorem byteSize_eq (h : AlikeInSpan a b) : byteSize b = byteSize a := by
  induction h with
  | nil => rfl
  | cons hcd _ ih => rw [byteSize_cons, byteSize_cons, hcd.1, ih]

theorem take (h : AlikeInSpan a b) (n : Nat) : AlikeInSpan (a.take n) (b.take n) :=
  forall₂_take n h

theorem newlineOffsetsFrom_eq (h : AlikeInSpan a b) (offset : Nat) :
    newlineOffsetsFrom offset b = newlineOffsetsFrom offset a := by
  induction h generalizing offset with
  | nil => rfl
  | @cons c d _ _ hcd _ ih =>
    rw [newlineOffsetsFrom, newlineOffsetsFrom, hcd.1, ih]
    by_cases hc : c = '\n'
    · rw [if_pos hc, if_pos (hcd.2.mpr hc)]
    · rw [if_neg hc, if_neg (mt hcd.2.mp hc)]

end AlikeInSpan

/-- **Texts that are alike in span have one line index.** -/
theorem Lines.of_eq_of_alikeInSpan {a b : List Char} (h : AlikeInSpan a b) :
    Lines.of b = Lines.of a := by
  rw [Lines.of, Lines.of, lineStartsFrom_eq_map, lineStartsFrom_eq_map, h.newlineOffsetsFrom_eq]

end AppAtlas.Text
