import AppAtlas.Text.Basic
import Mathlib.Data.List.Infix

/-!
# Where texts are cut

A text is cut at the first occurrence of another one.  Among all places where it could be cut, the
first one leaves the most behind it, so nothing that is found behind another place is lost.

* `Text.segments_append`, `Text.filledSegments_concat`: the pieces of two texts with a separator
  between.
* `Text.byteSize_eq_zero_iff`: only the empty text takes no bytes.
-/

namespace AppAtlas.Text

open List

variable {after text : List Char} {sep : Char}

/-! ### First occurrences -/

theorem append_cut {needle before : List Char} (h : cut needle text = some (before, after)) :
    text = before ++ needle ++ after := by
  induction text generalizing before with
  | nil =>
    rw [cut] at h
    split at h
    · next hempty =>
      obtain ⟨rfl, rfl⟩ := Prod.mk.inj (Option.some.inj h)
      rw [isEmpty_iff.mp hempty]
      rfl
    · cases h
  | cons c cs ih =>
    rw [cut] at h
    split at h
    · next rest hrest =>
      obtain ⟨rfl, rfl⟩ := Prod.mk.inj (Option.some.inj h)
      rw [nil_append, isPrefixOf?_eq_some_iff_append_eq.mp hrest]
    · obtain ⟨⟨b, a⟩, hcut, hpair⟩ := Option.map_eq_some_iff.mp h
      obtain ⟨rfl, rfl⟩ := Prod.mk.inj hpair
      rw [ih hcut]
      rfl

/-- **A text is cut before or at each occurrence**, so what stands behind an occurrence stands
behind the cut. -/
theorem exists_cut (needle before after : List Char) :
    ∃ before' after', cut needle (before ++ needle ++ after) = some (before', after') ∧
      after <:+ after' := by
  induction before with
  | nil =>
    rw [nil_append]
    cases htext : needle ++ after with
    | nil =>
      obtain ⟨rfl, rfl⟩ := append_eq_nil_iff.mp htext
      exact ⟨[], [], rfl, suffix_refl _⟩
    | cons c cs =>
      have hprefix : needle.isPrefixOf? (c :: cs) = some after :=
        isPrefixOf?_eq_some_iff_append_eq.mpr htext
      exact ⟨[], after, by rw [cut, hprefix], suffix_refl _⟩
  | cons c before ih =>
    rw [cons_append, cons_append, cut]
    split
    · next rest hrest =>
      -- an occurrence right at the start, which leaves all but itself
      refine ⟨[], rest, rfl, ?_⟩
      have hwhole := isPrefixOf?_eq_some_iff_append_eq.mp hrest
      have hafter : after <:+ needle ++ rest := by
        rw [hwhole]
        exact (suffix_append _ after).trans (suffix_cons _ _)
      have hlength : after.length ≤ rest.length := by
        have := congrArg length hwhole
        simp only [length_append, length_cons] at this
        omega
      exact suffix_of_suffix_length_le hafter (suffix_append _ _) hlength
    · obtain ⟨before', after', hcut, hsuffix⟩ := ih
      exact ⟨c :: before', after', by rw [hcut]; rfl, hsuffix⟩

theorem isSome_stripEnd?_iff {tail : List Char} : (stripEnd? tail text).isSome ↔ tail <:+ text := by
  rw [stripEnd?, Option.isSome_map, isSome_isPrefixOf?_eq_isPrefixOf, isPrefixOf_iff_prefix,
    reverse_prefix]

theorem append_stripEnd? {tail front : List Char} (h : stripEnd? tail text = some front) :
    front ++ tail = text := by
  obtain ⟨rest, hrest, rfl⟩ := Option.map_eq_some_iff.mp h
  have hwhole := isPrefixOf?_eq_some_iff_append_eq.mp hrest
  rw [← reverse_inj, ← hwhole, reverse_append, reverse_reverse]

/-! ### The last occurrence -/

theorem cutLast_eq_none {cs : List Char} (h : sep ∉ cs) : cutLast sep cs = none := by
  induction cs with
  | nil => rfl
  | cons c cs ih =>
    rw [mem_cons, not_or] at h
    rw [cutLast, ih h.2]
    exact if_neg (Ne.symm h.1)

section

variable (before : List Char) (h : sep ∉ after)

include h

theorem cutLast_append : cutLast sep (before ++ sep :: after) = some (before, after) := by
  induction before with
  | nil => rw [nil_append, cutLast, cutLast_eq_none h]; exact if_pos rfl
  | cons c cs ih => rw [cons_append, cutLast, ih]

theorem afterLast_append : afterLast sep (before ++ sep :: after) = after := by
  rw [afterLast, cutLast_append before h]

theorem cutLast_append_of_not_mem :
    cutLast sep (before ++ after) = (cutLast sep before).map fun p => (p.1, p.2 ++ after) := by
  induction before with
  | nil => exact cutLast_eq_none h
  | cons c cs ih =>
    rw [cons_append, cutLast, ih, cutLast]
    cases cutLast sep cs with
    | some p => rfl
    | none => by_cases hc : c = sep <;> simp [hc]

theorem afterLast_append_of_not_mem :
    afterLast sep (before ++ after) = afterLast sep before ++ after := by
  rw [afterLast, cutLast_append_of_not_mem before h, afterLast]
  cases cutLast sep before <;> rfl

end

/-! ### Pieces between separators -/

section Segments

variable {sep : Char}

theorem segments_cons_self (cs : List Char) :
    segments (· == sep) (sep :: cs) = [] :: segments (· == sep) cs := by
  rw [segments]
  cases hcs : segments (· == sep) cs with
  | nil => exact absurd hcs (segments_ne_nil _ cs)
  | cons s ss => simp

theorem segments_cons_of_ne {c : Char} (h : c ≠ sep) {cs s : List Char} {ss : List (List Char)}
    (hcs : segments (· == sep) cs = s :: ss) : segments (· == sep) (c :: cs) = (c :: s) :: ss := by
  rw [segments, hcs]
  simp [h]

/-- **A separator parts the pieces before it from those after it.** -/
theorem segments_append (before after : List Char) : segments (· == sep) (before ++ sep :: after) =
      segments (· == sep) before ++ segments (· == sep) after := by
  induction before with
  | nil => exact segments_cons_self after
  | cons c before ih =>
    rw [cons_append]
    by_cases hc : c = sep
    · subst hc
      rw [segments_cons_self, segments_cons_self, ih]
      rfl
    · cases hbefore : segments (· == sep) before with
      | nil => exact absurd hbefore (segments_ne_nil _ before)
      | cons s ss =>
        rw [hbefore] at ih
        rw [segments_cons_of_ne hc ih, segments_cons_of_ne hc hbefore]
        rfl

theorem segments_of_not_mem {cs : List Char} (h : sep ∉ cs) : segments (· == sep) cs = [cs] := by
  induction cs with
  | nil => rfl
  | cons c cs ih =>
    obtain ⟨hc, hcs⟩ := not_or.mp (mem_cons.not.mp h)
    exact segments_cons_of_ne (Ne.symm hc) (ih hcs)

theorem not_mem_of_mem_segments {cs s : List Char} (h : s ∈ segments (· == sep) cs) : sep ∉ s := by
  induction cs generalizing s with
  | nil =>
    obtain rfl := mem_singleton.mp h
    exact not_mem_nil
  | cons c cs ih =>
    by_cases hc : c = sep
    · subst hc
      rw [segments_cons_self] at h
      rcases mem_cons.mp h with rfl | h
      · exact not_mem_nil
      · exact ih h
    · cases hcs : segments (· == sep) cs with
      | nil => exact absurd hcs (segments_ne_nil _ cs)
      | cons t ts =>
        rw [hcs] at ih
        rw [segments_cons_of_ne hc hcs] at h
        rcases mem_cons.mp h with rfl | h
        · exact not_mem_cons_of_ne_of_not_mem (Ne.symm hc) (ih mem_cons_self)
        · exact ih (mem_cons_of_mem t h)

theorem filledSegments_concat (front : List Char) {last : List Char} (hsep : sep ∉ last)
    (hne : last ≠ []) : filledSegments (· == sep) (front ++ sep :: last) =
      filledSegments (· == sep) front ++ [last] := by
  have hkept : [last].filter (fun s => !s.isEmpty) = [last] := by simp [hne]
  rw [filledSegments, filledSegments, segments_append, segments_of_not_mem hsep, filter_append,
    hkept]

end Segments

theorem intercalate_cons {α : Type} (between word : List α) (words : List (List α)) :
    between.intercalate (word :: words) = word ++ words.flatMap (between ++ ·) := by
  induction words generalizing word with
  | nil => simp
  | cons w ws ih =>
    rw [intercalate_cons_cons, ih, flatMap_cons]
    simp

theorem joinWith_cons (between word : List Char) (words : List (List Char)) :
    joinWith between (word :: words) = word ++ words.flatMap (between ++ ·) :=
  intercalate_cons between word words

/-! ### Sizes -/

@[simp] theorem byteSize_eq_zero_iff {cs : List Char} : byteSize cs = 0 ↔ cs = [] := by
  cases cs with
  | nil => simp
  | cons c cs =>
    have := c.utf8Size_pos
    simp only [byteSize_cons, reduceCtorEq, iff_false]
    omega

end AppAtlas.Text
